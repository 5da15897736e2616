import OlsDapp.Handler.Invariant
import Mathlib.Algebra.BigOperators.Group.List.Basic
import Mathlib.Tactic.Ring

/-!
# Credits and draws of one wallet

`addUserCoin` and `addUserDrawCoin` save an entity computed from a read that lies an await
back. While no wallet is read between another effect's read and its save, nothing is lost:
the wallet holds its first amounts and all that was issued to it, up to the one save that is
still due.
-/

namespace OlsDapp.Handler

open Lib (Row Table)
open Lib.InFlight (resume)
open Lib.Machine (run Along)

section Definitions

variable (k : Nat)

/-- The entity an effect read, and what it will save for it. -/
def Effect.write (e : Effect) : Option (Nat × UOlsWallet) :=
  match e.pc with
  | .addUserCoin user amount => some (user.id, addUserCoin user.val e.tx.val.type amount)
  | .addUserDrawCoin user amount => some (user.id, addUserDrawCoin user.val e.tx.val.type amount)
  | _ => none

/-- The effect has read wallet `k` and not yet saved it. -/
def Effect.holds (e : Effect) : Bool := e.write.any fun w => w.1 = k

/-- The wallet the effect reads in its next step. -/
def Effect.reads (db : Db) (e : Effect) : Option Nat :=
  if e.tx.val.status = .confirmed then
    match e.pc with
    | .charge =>
      (db.uOlsWallet.findOne fun user => user.eth_address = some e.tx.val.to_).map (·.id)
    | .transfer =>
      (db.uOlsWallet.findOne fun user => user.eth_address = some e.tx.val.from_).map (·.id)
    | _ => none
  else none

/-- An effect reads wallet `k` only while no other effect is between its read and its save,
and an effect that has read it does save it. -/
def Exclusive (s : Sys) (l : Label) : Prop :=
  Spares (Effect.holds k)
    (fun e => e.reads s.db = some k → ∀ e' ∈ s.effects, e'.holds k = false) s l

instance (s : Sys) (l : Label) : Decidable (Exclusive k s l) :=
  inferInstanceAs (Decidable (Spares _ _ s l))

/-- What a call of `addUserCoin` adds to wallet `k`. -/
def Note.credit : Note → ℚ
  | .addUserCoin _ user (.num x) => if user = k then x else 0
  | _ => 0

def Note.draw : Note → ℚ
  | .addUserDrawCoin _ user (.num x) => if user = k then x else 0
  | _ => 0

namespace Sys

variable (s : Sys)

def credits : ℚ := (s.history.map (Note.credit k)).sum
def draws : ℚ := (s.history.map (Note.draw k)).sum

end Sys

/-- The three columns are numbers, and these. -/
structure UOlsWallet.Has (w : UOlsWallet) (amount charge_amount draw_amount : ℚ) : Prop where
  amount : w.amount = .num amount
  charge_amount : w.charge_amount = .num charge_amount
  draw_amount : w.draw_amount = .num draw_amount

/-- The wallet as it is once nothing is due: its first amounts and all that was issued. -/
def Paid (a c d : ℚ) (s : Sys) (w : UOlsWallet) : Prop :=
  w.Has (a + s.credits k) (c + s.credits k) (d + s.draws k)

/-- Wallet `k` is paid, or exactly one effect is due to save it as paid. -/
def Account (a c d : ℚ) (s : Sys) : Prop :=
  ∃ w, s.db.uOlsWallet.findById k = some ⟨k, w⟩ ∧
    ((s.effects.countP (Effect.holds k) = 0 ∧ Paid k a c d s w) ∨
      (s.effects.countP (Effect.holds k) = 1 ∧
        ∃ e ∈ s.effects, ∃ new, e.write = some (k, new) ∧ Paid k a c d s new))

/-- Amounts are numbers. -/
def Transaction.Exact (tx : Transaction) : Prop := ∃ x, tx.tokenAmount = .num x

end Definitions

section Saves

variable {env : Env} {db : Db} {e : Effect} {k id : Nat} {w new stored : UOlsWallet} {a c d : ℚ}

/-- Columns that keep every number keep a wallet of numbers as it is. -/
theorem stored_of_has (hexact : ∀ x, env.double (.num x) = some (.num x)) (h : w.Has a c d) :
    w.stored env = some w := by
  obtain ⟨h1, h2, h3⟩ := h
  simp only [UOlsWallet.stored, h1, h2, h3, hexact, Option.bind_eq_bind, Option.bind_some,
    Option.pure_def]
  rw [← h1, ← h2, ← h3]

theorem has_addUserCoin (h : w.Has a c d) (x : ℚ) :
    (addUserCoin w .ols (.num x)).Has (a + x) (c + x) d := by
  obtain ⟨h1, h2, h3⟩ := h
  refine ⟨?_, ?_, ?_⟩
  · simp [addUserCoin, h1, parseFloat, Number.add, Number.toAmount]
  · simp [addUserCoin, h2, parseFloat, Number.add, Number.toAmount]
  · exact h3

theorem has_addUserDrawCoin (h : w.Has a c d) (x : ℚ) :
    (addUserDrawCoin w .ols (.num x)).Has a c (d + x) := by
  obtain ⟨h1, h2, h3⟩ := h
  refine ⟨h1, h2, ?_⟩
  simp [addUserDrawCoin, h3, parseFloat, Number.add, Number.toAmount]

theorem holds_iff : e.holds k = true ↔ ∃ new, e.write = some (k, new) := by
  unfold Effect.holds
  cases e.write with
  | none => simp
  | some w =>
    obtain ⟨id, new⟩ := w
    simp [eq_comm]

/-- The save an effect is due for. -/
theorem resume_write (db : Db) (k : Nat) (h : e.write = some (id, new))
    (hst : new.stored env = some stored) :
    ∃ notes, e.resume env db =
        ⟨{ db with uOlsWallet := db.uOlsWallet.save ⟨id, stored⟩ }, [], notes⟩ ∧
      ∀ n ∈ notes, n.credit k = 0 ∧ n.draw k = 0 := by
  unfold Effect.write at h
  split at h
  · next user amount hpc =>
    obtain ⟨rfl, rfl⟩ := Prod.mk.inj (Option.some.inj h)
    have hsave : saveWallet env db ⟨user.id, addUserCoin user.val e.tx.val.type amount⟩ = _ :=
      saveWallet_eq_some.mpr ⟨stored, hst, rfl⟩
    refine ⟨[.credited e.data user.id amount], ?_, fun n hn => ?_⟩
    · simp only [Effect.resume, hpc]
      rw [hsave]
    · obtain rfl := List.mem_singleton.mp hn
      exact ⟨rfl, rfl⟩
  · next user amount hpc =>
    obtain ⟨rfl, rfl⟩ := Prod.mk.inj (Option.some.inj h)
    have hsave : saveWallet env db ⟨user.id, addUserDrawCoin user.val e.tx.val.type amount⟩ = _ :=
      saveWallet_eq_some.mpr ⟨stored, hst, rfl⟩
    refine ⟨[], ?_, fun n hn => absurd hn List.not_mem_nil⟩
    simp only [Effect.resume, hpc]
    rw [hsave]
  · cases h

end Saves

section Steps

variable {cfg : Config} {env : Env} {receipts : Receipts} {s s' : Sys} {k : Nat} {a c d : ℚ}

theorem sum_append_notes (f : Note → ℚ) (notes history : List Note) :
    ((notes ++ history).map f).sum = (notes.map f).sum + (history.map f).sum := by
  rw [List.map_append, List.sum_append]

theorem sum_notes_eq_zero {f : Note → ℚ} {notes : List Note} (h : ∀ n ∈ notes, f n = 0) :
    (notes.map f).sum = 0 := by
  refine List.sum_eq_zero fun x hx => ?_
  obtain ⟨n, hn, rfl⟩ := List.mem_map.mp hx
  exact h n hn

/-- Notes that issue nothing to the wallet. -/
theorem issued_eq (notes : List Note) (hnotes : ∀ n ∈ notes, n.credit k = 0 ∧ n.draw k = 0)
    (hhistory : s'.history = notes ++ s.history) :
    s'.credits k = s.credits k ∧ s'.draws k = s.draws k := by
  unfold Sys.credits Sys.draws
  rw [hhistory, sum_append_notes, sum_append_notes, sum_notes_eq_zero fun n hn => (hnotes n hn).1,
    sum_notes_eq_zero fun n hn => (hnotes n hn).2, zero_add, zero_add]
  exact ⟨rfl, rfl⟩

theorem paid_congr {w : UOlsWallet} (h : Paid k a c d s w)
    (hissued : s'.credits k = s.credits k ∧ s'.draws k = s.draws k) : Paid k a c d s' w := by
  unfold Paid at *
  rw [hissued.1, hissued.2]
  exact h

/-- A step that neither writes wallet `k` nor changes what is due to it. -/
theorem account_frame (h : Account k a c d s)
    (hdb : s'.db.uOlsWallet.findById k = s.db.uOlsWallet.findById k)
    (hcount : s'.effects.countP (Effect.holds k) = s.effects.countP (Effect.holds k))
    (hmem : ∀ e ∈ s.effects, e.holds k = true → e ∈ s'.effects)
    (hissued : s'.credits k = s.credits k ∧ s'.draws k = s.draws k) : Account k a c d s' := by
  obtain ⟨w, hw, ⟨hzero, hpaid⟩ | ⟨hone, e, he, new, hwrite, hpaid⟩⟩ := h
  · exact ⟨w, hdb.trans hw, Or.inl ⟨hcount.trans hzero, paid_congr hpaid hissued⟩⟩
  · refine ⟨w, hdb.trans hw, Or.inr ⟨hcount.trans hone, e, ?_, new, hwrite,
      paid_congr hpaid hissued⟩⟩
    exact hmem e he (holds_iff.mpr ⟨new, hwrite⟩)

/-- The save of the one effect that is due. -/
theorem account_write (hexact : ∀ x, env.double (.num x) = some (.num x)) (h : Account k a c d s)
    {e : Effect} (he : e ∈ s.effects) (hholds : e.holds k = true)
    (hdb : s'.db = (e.resume env s.db).db)
    (heffects : s'.effects =
      resume s.effects e ((e.resume env s.db).next.map fun pc => { e with pc }))
    (hhistory : s'.history = (e.resume env s.db).notes ++ s.history) : Account k a c d s' := by
  obtain ⟨w, hw, ⟨hzero, _⟩ | ⟨hone, e', he', new, hwrite, hpaid⟩⟩ := h
  · have hpos : 0 < s.effects.countP (Effect.holds k) := List.countP_pos_iff.mpr ⟨e, he, hholds⟩
    omega
  · obtain rfl := Lib.InFlight.eq_of_countP_eq_one (Effect.holds k) hone he he' hholds
      (holds_iff.mpr ⟨new, hwrite⟩)
    obtain ⟨notes, hres, hnotes⟩ := resume_write s.db k hwrite
      (stored_of_has hexact hpaid)
    rw [hres] at hdb heffects hhistory
    refine ⟨new, ?_, Or.inl ⟨?_, paid_congr hpaid (issued_eq _ hnotes hhistory)⟩⟩
    · rw [hdb]
      exact Table.findById_save_self hw
    · have hcount := Lib.InFlight.countP_erase_add (Effect.holds k) he
      rw [hholds, if_pos rfl] at hcount
      rw [heffects]
      show (s.effects.erase e).countP (Effect.holds k) = 0
      omega

/-- A read of wallet `k` while nothing is due to it: the new effect is due what it issued. -/
theorem account_read {e : Effect} {pc : EffectPc} {rest : List EffectPc}
    (new : UOlsWallet) (h : Account k a c d s) (hnone : ∀ e' ∈ s.effects, e'.holds k = false)
    (hdb : s'.db.uOlsWallet = s.db.uOlsWallet)
    (heffects : s'.effects = resume s.effects e ((pc :: rest).map fun pc => { e with pc }))
    (hrest : ∀ pc ∈ rest, ({ e with pc } : Effect).holds k = false)
    (hwrite : ({ e with pc } : Effect).write = some (k, new))
    (hpaid : ∀ w, s.db.uOlsWallet.findById k = some ⟨k, w⟩ → Paid k a c d s w →
      Paid k a c d s' new) : Account k a c d s' := by
  obtain ⟨w, hw, ⟨_, hp⟩ | ⟨hone, e', he', new', hwrite', _⟩⟩ := h
  · refine ⟨w, by rw [hdb]; exact hw, Or.inr ⟨?_, { e with pc }, ?_, new, hwrite, hpaid w hw hp⟩⟩
    · rw [heffects, List.map_cons, resume, List.cons_append, List.countP_cons,
        if_pos (holds_iff.mpr ⟨new, hwrite⟩), List.countP_append]
      have h1 : (s.effects.erase e).countP (Effect.holds k) = 0 :=
        Lib.InFlight.countP_eq_zero fun e' he' => hnone e' (List.mem_of_mem_erase he')
      have h2 : (rest.map fun pc => ({ e with pc } : Effect)).countP (Effect.holds k) = 0 := by
        refine Lib.InFlight.countP_eq_zero fun e' he' => ?_
        obtain ⟨pc', hpc', rfl⟩ := List.mem_map.mp he'
        exact hrest pc' hpc'
      rw [h1, h2]
    · rw [heffects]
      exact Lib.InFlight.mem_resume_of_mem_next List.mem_cons_self
  · have hno := hnone e' he'
    rw [holds_iff.mpr ⟨new', hwrite'⟩] at hno
    cases hno

/-- A step of an effect that has nothing to do with wallet `k`. -/
theorem account_other {e : Effect} {next : List EffectPc} {notes : List Note}
    (h : Account k a c d s) (he : e ∈ s.effects) (hholds : e.holds k = false)
    (hdb : s'.db.uOlsWallet.findById k = s.db.uOlsWallet.findById k)
    (heffects : s'.effects = resume s.effects e (next.map fun pc => { e with pc }))
    (hhistory : s'.history = notes ++ s.history)
    (hnext : ∀ pc ∈ next, ({ e with pc } : Effect).holds k = false)
    (hnotes : ∀ n ∈ notes, n.credit k = 0 ∧ n.draw k = 0) : Account k a c d s' := by
  have hzero : (next.map fun pc => ({ e with pc } : Effect)).countP (Effect.holds k) = 0 := by
    refine Lib.InFlight.countP_eq_zero fun e' he' => ?_
    obtain ⟨pc, hpc, rfl⟩ := List.mem_map.mp he'
    exact hnext pc hpc
  refine account_frame h hdb ?_ (fun e' he' hh => ?_) (issued_eq _ hnotes hhistory)
  · have hcount := Lib.InFlight.countP_resume (Effect.holds k)
      (next.map fun pc => ({ e with pc } : Effect)) he
    rw [hholds, if_neg Bool.false_ne_true, hzero] at hcount
    rw [heffects]
    omega
  · rw [heffects]
    refine Lib.InFlight.mem_resume_of_ne he' fun heq => ?_
    rw [heq, hholds] at hh
    cases hh

/-- `processChargeEthOrToken` reads a wallet. -/
theorem account_charge (h : Account k a c d s) {e : Effect} (he : e ∈ s.effects)
    (hholds : e.holds k = false) (hex : Exclusive k s (.effect e)) {user : Row UOlsWallet} {x : ℚ}
    (hpc : e.pc = .charge) (hst : e.tx.val.status = .confirmed) (htype : e.tx.val.type = .ols)
    (hfound : s.db.uOlsWallet.findOne (fun w => w.eth_address = some e.tx.val.to_) = some user)
    (hdb : s'.db = s.db)
    (heffects : s'.effects = resume s.effects e
      ([.addUserCoin user (.num x), .saveMyzr (myzrData e.tx.val user (.num x)).create].map
        fun pc => { e with pc }))
    (hhistory : s'.history = [.addUserCoin e.data user.id (.num x)] ++ s.history) :
    Account k a c d s' := by
  by_cases hid : user.id = k
  · have hreads : e.reads s.db = some k := by
      simp only [Effect.reads, hst, hpc, hfound, Option.map_some, hid, if_true]
    refine account_read (addUserCoin user.val e.tx.val.type (.num x)) h (hex hreads)
      (by rw [hdb]) heffects ?_ ?_ fun w hw hp => ?_
    · exact List.forall_mem_singleton.mpr rfl
    · simp only [Effect.write, hid]
    · obtain ⟨hmem, _⟩ := Table.mem_of_findOne hfound
      have huser := Table.findById_eq_some.mpr ⟨hmem, hid⟩
      rw [hw] at huser
      obtain rfl := Option.some.inj huser
      have hcredits : s'.credits k = s.credits k + x := by
        unfold Sys.credits
        rw [hhistory, sum_append_notes]
        simp only [List.map_cons, List.map_nil, List.sum_cons, List.sum_nil, Note.credit, if_true]
        ring
      have hdraws : s'.draws k = s.draws k := by
        unfold Sys.draws
        rw [hhistory, sum_append_notes]
        simp only [List.map_cons, List.map_nil, List.sum_cons, List.sum_nil, Note.draw, zero_add]
      unfold Paid at hp ⊢
      rw [htype, hcredits, hdraws, ← add_assoc, ← add_assoc]
      exact has_addUserCoin hp x
  · refine account_other h he hholds (by rw [hdb]) heffects hhistory ?_ ?_
    · refine List.forall_mem_cons.mpr ⟨?_, List.forall_mem_singleton.mpr rfl⟩
      simp only [Effect.holds, Effect.write, Option.any_some, decide_eq_false_iff_not]
      exact hid
    · refine List.forall_mem_singleton.mpr ⟨?_, rfl⟩
      simp only [Note.credit, if_neg hid]

/-- `processTransferEthOrToken` reads a wallet. -/
theorem account_transfer (h : Account k a c d s) {e : Effect} (he : e ∈ s.effects)
    (hholds : e.holds k = false) (hex : Exclusive k s (.effect e)) {user : Row UOlsWallet} {x : ℚ}
    (hpc : e.pc = .transfer) (hst : e.tx.val.status = .confirmed) (htype : e.tx.val.type = .ols)
    (hfound : s.db.uOlsWallet.findOne (fun w => w.eth_address = some e.tx.val.from_) = some user)
    (hdb : s'.db = s.db)
    (heffects : s'.effects = resume s.effects e
      ([.addUserDrawCoin user (.num x)].map fun pc => { e with pc }))
    (hhistory : s'.history = [.addUserDrawCoin e.data user.id (.num x)] ++ s.history) :
    Account k a c d s' := by
  by_cases hid : user.id = k
  · have hreads : e.reads s.db = some k := by
      simp only [Effect.reads, hst, hpc, hfound, Option.map_some, hid, if_true]
    refine account_read (addUserDrawCoin user.val e.tx.val.type (.num x)) h (hex hreads)
      (by rw [hdb]) heffects ?_ ?_ fun w hw hp => ?_
    · exact List.forall_mem_nil _
    · simp only [Effect.write, hid]
    · obtain ⟨hmem, _⟩ := Table.mem_of_findOne hfound
      have huser := Table.findById_eq_some.mpr ⟨hmem, hid⟩
      rw [hw] at huser
      obtain rfl := Option.some.inj huser
      have hcredits : s'.credits k = s.credits k := by
        unfold Sys.credits
        rw [hhistory, sum_append_notes]
        simp only [List.map_cons, List.map_nil, List.sum_cons, List.sum_nil, Note.credit, zero_add]
      have hdraws : s'.draws k = s.draws k + x := by
        unfold Sys.draws
        rw [hhistory, sum_append_notes]
        simp only [List.map_cons, List.map_nil, List.sum_cons, List.sum_nil, Note.draw, if_true]
        ring
      unfold Paid at hp ⊢
      rw [htype, hcredits, hdraws, ← add_assoc]
      exact has_addUserDrawCoin hp x
  · refine account_other h he hholds (by rw [hdb]) heffects hhistory ?_ ?_
    · refine List.forall_mem_singleton.mpr ?_
      simp only [Effect.holds, Effect.write, Option.any_some, decide_eq_false_iff_not]
      exact hid
    · refine List.forall_mem_singleton.mpr ⟨rfl, ?_⟩
      simp only [Note.draw, if_neg hid]

/-- What an effect that is due nothing to wallet `k` does to it: it may read it, and else it
leaves it alone. -/
theorem account_effect (hexact : ∀ x, env.double (.num x) = some (.num x))
    (h : Account k a c d s) (hsound : s.Sound receipts) {e : Effect} (he : e ∈ s.effects)
    (htx : e.tx.val.Exact) (hex : Exclusive k s (.effect e))
    (hdb : s'.db = (e.resume env s.db).db)
    (heffects : s'.effects =
      resume s.effects e ((e.resume env s.db).next.map fun pc => { e with pc }))
    (hhistory : s'.history = (e.resume env s.db).notes ++ s.history) : Account k a c d s' := by
  by_cases hholds : e.holds k = true
  · exact account_write hexact h he hholds hdb heffects hhistory
  rw [Bool.not_eq_true] at hholds
  obtain ⟨x, hx⟩ := htx
  have htype : e.tx.val.type = .ols := (matches_iff.mp (hsound.effects e he).row).2.1
  have hcoins : e.tx.val.coins = .num x := by
    simp only [Transaction.coins, checkTokenTransfer, htype, decide_true, if_true, hx]
  have hnil : ∀ n ∈ ([] : List Note), n.credit k = 0 ∧ n.draw k = 0 := List.forall_mem_nil _
  have hsaved : ∀ id new, e.write = some (id, new) → id ≠ k := by
    intro id new hw heq
    subst heq
    rw [holds_iff.mpr ⟨new, hw⟩] at hholds
    cases hholds
  have hres := resumes env s.db e
  generalize e.resume env s.db = o at hdb heffects hhistory hres
  cases hres with
  | stops =>
    exact account_other h he hholds (by rw [hdb]) heffects hhistory (List.forall_mem_nil _) hnil
  | routes manager pc at_ found routed =>
    refine account_other h he hholds (by rw [hdb]) heffects hhistory ?_ hnil
    refine List.forall_mem_singleton.mpr ?_
    rcases route_cases routed with rfl | rfl | rfl <;> rfl
  | charges user at_ confirmed found =>
    rw [hcoins] at heffects hhistory
    exact account_charge h he hholds hex at_ confirmed htype found hdb heffects hhistory
  | credits user amount stored at_ kept =>
    have hid : user.id ≠ k := hsaved _ (addUserCoin user.val e.tx.val.type amount)
      (by simp only [Effect.write, at_])
    refine account_other h he hholds ?_ heffects hhistory (List.forall_mem_nil _) ?_
    · rw [hdb]
      exact Table.findById_save_ne hid.symm
    · exact List.forall_mem_singleton.mpr ⟨rfl, rfl⟩
  | deposits newTx row at_ kept =>
    exact account_other h he hholds (by rw [hdb]) heffects hhistory (List.forall_mem_nil _) hnil
  | transfers user at_ confirmed found =>
    rw [hcoins] at heffects hhistory
    exact account_transfer h he hholds hex at_ confirmed htype found hdb heffects hhistory
  | draws user amount stored at_ kept =>
    have hid : user.id ≠ k := hsaved _ (addUserDrawCoin user.val e.tx.val.type amount)
      (by simp only [Effect.write, at_])
    refine account_other h he hholds ?_ heffects hhistory (List.forall_mem_nil _) hnil
    rw [hdb]
    exact Table.findById_save_ne hid.symm
  | withdraws record at_ confirmed found =>
    refine account_other h he hholds (by rw [hdb]) heffects hhistory ?_ hnil
    exact List.forall_mem_singleton.mpr rfl
  | refuses record at_ confirmed found =>
    refine account_other h he hholds (by rw [hdb]) heffects hhistory ?_ hnil
    exact List.forall_mem_singleton.mpr rfl
  | looksUp record at_ =>
    refine account_other h he hholds (by rw [hdb]) heffects hhistory ?_ hnil
    exact List.forall_mem_singleton.mpr rfl
  | settles record at_ =>
    refine account_other h he hholds (by rw [hdb]) heffects hhistory (List.forall_mem_nil _) ?_
    exact List.forall_mem_singleton.mpr ⟨rfl, rfl⟩

theorem account_step (hexact : ∀ x, env.double (.num x) = some (.num x)) {l : Label}
    (henv : env.Gives receipts)
    (hs : s.Sound receipts ∧ Everywhere (fun _ => True) Transaction.Exact s ∧ Account k a c d s)
    (hex : Exclusive k s l) (hstep : step cfg env s l = some s') :
    s'.Sound receipts ∧ Everywhere (fun _ => True) Transaction.Exact s' ∧ Account k a c d s' := by
  obtain ⟨hsound, heverywhere, h⟩ := hs
  refine ⟨sound_step henv hsound hstep, everywhere_step (fun _ _ => trivial)
    (fun data _ receipt => ⟨fromWei data.value, rfl⟩) (fun _ _ h => h) heverywhere hstep, ?_⟩
  have hquiet (notes : List Note) (hnotes : ∀ n ∈ notes, n.credit k = 0 ∧ n.draw k = 0)
      (hdb : s'.db.uOlsWallet = s.db.uOlsWallet) (heffects : s'.effects = s.effects)
      (hhistory : s'.history = notes ++ s.history) : Account k a c d s' :=
    account_frame h (by rw [hdb]) (by rw [heffects]) (fun e he _ => heffects ▸ he)
      (issued_eq _ hnotes hhistory)
  cases step_change hstep with
  | arrives data awaited from_ db runs effects history =>
    exact hquiet [] (List.forall_mem_nil _) (by rw [db]) effects history
  | scans notes scan db runs effects history =>
    refine hquiet notes (fun n hn => ?_) (by rw [db]) effects history
    obtain ⟨_, _, rfl⟩ := scan n hn
    exact ⟨rfl, rfl⟩
  | waits r mem pc resumed db runs effects history =>
    exact hquiet [] (List.forall_mem_nil _) (by rw [db]) effects history
  | returns r mem resumed notes scan db runs effects history =>
    refine hquiet notes (fun n hn => ?_) (by rw [db]) effects history
    rw [scan n hn]
    exact ⟨rfl, rfl⟩
  | starts r mem save at_save notes scan db runs effects history =>
    refine account_frame h ?_ ?_ (fun e he _ => ?_) (issued_eq
      (notes ++ [.processReceivedEthOrToken r.data (save.run s.db).2])
      (fun n hn => ?_) (by rw [history, List.append_assoc]; rfl))
    · rw [db, (run_frame save s.db).1]
    · rw [effects, List.countP_cons]
      rfl
    · rw [effects]
      exact List.mem_cons_of_mem _ he
    · rcases List.mem_append.mp hn with hn | hn
      · rw [scan n hn]
        exact ⟨rfl, rfl⟩
      · obtain rfl := List.mem_singleton.mp hn
        exact ⟨rfl, rfl⟩
  | runFails r mem db runs effects history =>
    exact hquiet [] (List.forall_mem_nil _) (by rw [db]) effects history
  | effect e mem db runs effects history =>
    exact account_effect hexact h hsound mem (heverywhere.effects e mem).2 hex db effects history
  | effectFails e mem db runs effects history =>
    have hfree : e.holds k = false := hex
    refine account_frame h (by rw [db]) ?_ (fun e' he' hh => ?_)
      (issued_eq [] (List.forall_mem_nil _) history)
    · have hcount := Lib.InFlight.countP_erase_add (Effect.holds k) mem
      rw [hfree, if_neg Bool.false_ne_true] at hcount
      rw [effects]
      exact hcount
    · rw [effects]
      refine (List.mem_erase_of_ne fun heq => ?_).mpr he'
      rw [heq, hfree] at hh
      cases hh
  | crash db runs effects history =>
    have hfree : ∀ e ∈ s.effects, e.holds k = false := hex
    refine account_frame h (by rw [db]) ?_ (fun e he hh => ?_)
      (issued_eq [] (List.forall_mem_nil _) history)
    · rw [effects, Lib.InFlight.countP_eq_zero hfree]
      rfl
    · rw [hfree e he] at hh
      cases hh
  | storeTxhash record txhash row found blank db runs effects history =>
    exact hquiet [] (List.forall_mem_nil _) (by rw [db]) effects history

end Steps

/-- As long as no effect reads the wallet between another effect's read of it and its save,
the wallet ends, when no save is due, with its first amounts and all that was issued to it. -/
theorem no_lost_update (cfg : Config) (db : Db) (redis : Option Nat) (ms : List Move)
    (hexact : ∀ m ∈ ms, ∀ x, m.env.double (.num x) = some (.num x))
    (hnumbers : ∀ row ∈ db.transaction.rows, row.val.Exact)
    (k : Nat) (w : UOlsWallet) (a c d : ℚ) (hw : db.uOlsWallet.findById k = some ⟨k, w⟩)
    (hhas : w.Has a c d) (s : Sys) (hrun : run (next cfg) (Sys.start db redis) ms = some s)
    (hex : Along (next cfg) (fun s m => Exclusive k s m.label) (Sys.start db redis) ms)
    (hdone : ∀ e ∈ s.effects, e.holds k = false) :
    ∃ w', s.db.uOlsWallet.findById k = some ⟨k, w'⟩ ∧
      w'.Has (a + s.credits k) (c + s.credits k) (d + s.draws k) := by
  have hany : ∀ env : Env, env.Gives fun _ _ => True := fun _ _ _ _ => trivial
  have hstart : Account k a c d (Sys.start db redis) := by
    refine ⟨w, hw, Or.inl ⟨rfl, ?_⟩⟩
    unfold Paid Sys.credits Sys.draws
    simpa only [Sys.start, List.map_nil, List.sum_nil, add_zero] using hhas
  obtain ⟨_, _, w', hw', hcase⟩ := Lib.Machine.run_induction
    (P := fun s => s.Sound (fun _ _ => True) ∧ Everywhere (fun _ => True) Transaction.Exact s ∧
      Account k a c d s)
    (fun s m s' hs hg hstep => account_step hg.1 (hany m.env) hs hg.2 hstep)
    ⟨sound_start _ db redis, everywhere_start redis hnumbers, hstart⟩
    (Lib.Machine.along_and_mem hexact hex) hrun
  rcases hcase with ⟨_, hpaid⟩ | ⟨hone, _⟩
  · exact ⟨w', hw', hpaid⟩
  · rw [Lib.InFlight.countP_eq_zero hdone] at hone
    cases hone

section Samples

/-- One scan with two deposits to one wallet. -/
def sampleTwoDeposits : List Label :=
  [.jobStarts, .blockNumber 9, .redisGet, .pastEvents [sampleLog, sampleLaterLog]] ++
    sampleScan sampleLog ++ sampleScan sampleLaterLog

/-- The first deposit is saved before the second reads. -/
def sampleInTurn : List Move :=
  sampleMoves (sampleTwoDeposits ++ sampleReads sampleLog 1 ++
    sampleSaves sampleLog 1 sampleUser ++ sampleReads sampleLaterLog 2 ++
    sampleSaves sampleLaterLog 2 ⟨1, ⟨some 1, some "b", .num 1, .num 1, .num 0⟩⟩)

theorem no_lost_update_in_turn :
    ∃ s w, run (next sampleConfig) (Sys.start sampleDb none) sampleInTurn = some s ∧
      s.db.uOlsWallet.findById 1 = some ⟨1, w⟩ ∧
      w.Has (0 + s.credits 1) (0 + s.credits 1) (0 + s.draws 1) := by
  have h : (run (next sampleConfig) (Sys.start sampleDb none) sampleInTurn).any
      (fun s => ∀ e ∈ s.effects, e.holds 1 = false) = true := by
    decide +kernel
  have hexclusive : Along (next sampleConfig) (fun s m => Exclusive 1 s m.label)
      (Sys.start sampleDb none) sampleInTurn := by
    decide +kernel
  have hexact : ∀ m ∈ sampleInTurn, ∀ x, m.env.double (.num x) = some (.num x) := by
    intro m hm x
    obtain ⟨l, _, rfl⟩ := List.mem_map.mp hm
    rfl
  obtain ⟨s, hs, hdone⟩ := (Option.any_eq_true _ _).mp h
  obtain ⟨w, hw, hhas⟩ := no_lost_update sampleConfig sampleDb none sampleInTurn hexact
    (List.forall_mem_nil _) 1 sampleUser.val 0 0 0 rfl ⟨rfl, rfl, rfl⟩ s hs hexclusive
    (of_decide_eq_true hdone)
  exact ⟨s, w, hs, hw, hhas⟩

/-- Both effects of the scan read the wallet before either saves. -/
def sampleAtOnce : List Move :=
  sampleMoves (sampleTwoDeposits ++ sampleReads sampleLog 1 ++ sampleReads sampleLaterLog 2 ++
    sampleSaves sampleLog 1 sampleUser ++ sampleSaves sampleLaterLog 2 sampleUser)

/-- One of the two tokens credited is lost. -/
theorem one_scan_loses_a_credit :
    ∃ s w, run (next sampleConfig) (Sys.start sampleDb none) sampleAtOnce = some s ∧
      s.effects = [] ∧ s.db.uOlsWallet.findById 1 = some ⟨1, w⟩ ∧ s.credits 1 = 2 ∧
      w.amount = .num 1 ∧ w.charge_amount = .num 1 := by
  have h : (run (next sampleConfig) (Sys.start sampleDb none) sampleAtOnce).any
      (fun s => s.effects = [] ∧ s.credits 1 = 2 ∧ s.db.uOlsWallet.findById 1 =
        some ⟨1, ⟨some 1, some "b", .num 1, .num 1, .num 0⟩⟩) = true := by
    decide +kernel
  obtain ⟨s, hs, hp⟩ := (Option.any_eq_true _ _).mp h
  obtain ⟨h1, h2, h3⟩ := of_decide_eq_true hp
  exact ⟨s, _, hs, h1, h3, h2, rfl, rfl⟩

end Samples

end OlsDapp.Handler
