import OlsDapp.Handler.Wallet
import OlsDapp.Handler.Withdrawal

/-!
# Which writes are whose

Whatever interleaves, a wallet changes only by a save of `addUserCoin` or `addUserDrawCoin` that
was for it, and a withdrawal record by the effect that settles it or by the writer that stores its
hash. The entities are saved whole, from copies that may be old, but who a wallet or a record
belongs to is in every copy the same. The records of deposits are new rows, and blank.
-/

namespace OlsDapp.Handler

open Lib (Row Table)
open Lib.Machine (run)

section Definitions

/-- Whose wallet it is. -/
def UOlsWallet.identity (user : UOlsWallet) : Option Nat × Option String :=
  (user.u_user_id, user.eth_address)

/-- The wallet was saved by `addUserCoin`, or read by the caller of `addUserDrawCoin`. -/
def Note.writesWallet (u : Nat) : Note → Bool
  | .credited _ user _ => user = u
  | .addUserDrawCoin _ user _ => user = u
  | _ => false

def Note.writesRecord (k : Nat) : Note → Bool
  | .settled _ record _ => record = k
  | _ => false

def Note.callsAddUserCoin : Note → Bool
  | .addUserCoin _ _ _ => true
  | _ => false

def EffectPc.recording : EffectPc → Bool
  | .saveMyzr _ => true
  | _ => false

/-- What a run has not noted it has not written. -/
structure Attributed (db : Db) (s : Sys) : Prop where
  manager : s.db.sManagerWallet = db.sManagerWallet
  identities : s.db.uOlsWallet.image UOlsWallet.identity = db.uOlsWallet.image UOlsWallet.identity
  users : s.db.uOlsMyzc.image (·.u_user_id) = db.uOlsMyzc.image (·.u_user_id)
  wallet : ∀ u, (∀ n ∈ s.history, n.writesWallet u = false) →
    s.db.uOlsWallet.findById u = db.uOlsWallet.findById u
  record : ∀ k row, db.uOlsMyzc.findById k = some row →
    (∀ n ∈ s.history, n.writesRecord k = false) →
      ∃ row', s.db.uOlsMyzc.findById k = some row' ∧ row'.val.status = row.val.status ∧
        (row.val.txhash ≠ "" → row' = row)

/-- What the effects in flight hold to save. -/
structure Holding (db : Db) (s : Sys) : Prop where
  user : ∀ e ∈ s.effects, ∀ user, e.pc.user = some user →
    (user.id, user.val.identity) ∈ db.uOlsWallet.image UOlsWallet.identity
  drawing : ∀ e ∈ s.effects, ∀ user amount, e.pc = .addUserDrawCoin user amount →
    ∃ n ∈ s.history, n.writesWallet user.id = true
  record : ∀ e ∈ s.effects, ∀ record, e.pc.record = some record →
    (record.id, record.val.u_user_id) ∈ db.uOlsMyzc.image (·.u_user_id)

/-- The record names no user, sender or transaction. -/
def UOlsMyzr.Blank (row : UOlsMyzr) : Prop :=
  row.u_user_id = 0 ∧ row.addr = "" ∧ row.txhash = "" ∧ row.created_at = 0

/-- The entity sets none of these columns. -/
def MyzrEntity.Blank (entity : MyzrEntity) : Prop :=
  entity.u_user_id = none ∧ entity.addr = none ∧ entity.txhash = none ∧ entity.created_at = none

/-- The rows added to the deposit records; in a run that is `strict` there are none. -/
structure Recording (db : Db) (strict : Prop) (s : Sys) (new : List (Row UOlsMyzr)) : Prop where
  rows : s.db.uOlsMyzr.rows = db.uOlsMyzr.rows ++ new
  blank : ∀ row ∈ new, row.val.Blank
  strict : strict → new = []
  entities : ∀ e ∈ s.effects, ∀ newTx, e.pc = .saveMyzr newTx → newTx.Blank
  budget : new.length + s.effects.countP (fun e => e.pc.recording) ≤
    s.history.countP Note.callsAddUserCoin

end Definitions

section Wallets

variable {cfg : Config} {env : Env} {db : Db} {s s' : Sys} {l : Label} {e : Effect} {o : Outcome}

theorem stored_identity {user stored : UOlsWallet} (h : user.stored env = some stored) :
    stored.identity = user.identity := by
  simp only [UOlsWallet.stored, Option.bind_eq_bind, Option.bind_eq_some_iff, Option.pure_def,
    Option.some.injEq] at h
  obtain ⟨_, _, _, _, _, _, rfl⟩ := h
  rfl

theorem addUserCoin_identity (user : UOlsWallet) (type : TxType) (amount : Amount) :
    (addUserCoin user type amount).identity = user.identity := by
  unfold addUserCoin
  split <;> rfl

theorem addUserDrawCoin_identity (user : UOlsWallet) (type : TxType) (amount : Amount) :
    (addUserDrawCoin user type amount).identity = user.identity := by
  unfold addUserDrawCoin
  split <;> rfl

/-- What the step of an effect does to the wallets. -/
theorem Resumes.wallets (h : Resumes env db e o) :
    o.db.uOlsWallet = db.uOlsWallet ∨ ∃ user stored, e.pc.user = some user ∧
      o.db.uOlsWallet = db.uOlsWallet.save ⟨user.id, stored⟩ ∧
        stored.identity = user.val.identity ∧ ((∃ n ∈ o.notes, n.writesWallet user.id = true) ∨
          ∃ amount, e.pc = .addUserDrawCoin user amount) := by
  cases h with
  | credits user amount stored at_ kept =>
    refine Or.inr ⟨user, stored, by rw [at_]; rfl, rfl, ?_, Or.inl ⟨_, List.mem_cons_self, ?_⟩⟩
    · exact (stored_identity kept).trans (addUserCoin_identity _ _ _)
    · exact decide_eq_true rfl
  | draws user amount stored at_ kept =>
    refine Or.inr ⟨user, stored, by rw [at_]; rfl, rfl, ?_, Or.inr ⟨amount, at_⟩⟩
    exact (stored_identity kept).trans (addUserDrawCoin_identity _ _ _)
  | _ => exact Or.inl rfl

/-- What the step of an effect does to the withdrawal records. -/
theorem Resumes.withdrawals (h : Resumes env db e o) :
    o.db.uOlsMyzc = db.uOlsMyzc ∨ ∃ record, e.pc.record = some record ∧
      o.db.uOlsMyzc = db.uOlsMyzc.save record ∧
        ∃ n ∈ o.notes, n.writesRecord record.id = true := by
  cases h with
  | settles record at_ =>
    refine Or.inr ⟨record, by rw [at_]; rfl, rfl, _, List.mem_cons_self, ?_⟩
    exact decide_eq_true rfl
  | _ => exact Or.inl rfl

/-- An effect may wait here: the wallet or record it holds, if any, is of its own owner. -/
structure EffectPc.Own (db : Db) (notes : List Note) (pc : EffectPc) : Prop where
  user : ∀ user, pc.user = some user →
    (user.id, user.val.identity) ∈ db.uOlsWallet.image UOlsWallet.identity
  drawing : ∀ user amount, pc = .addUserDrawCoin user amount →
    ∃ n ∈ notes, n.writesWallet user.id = true
  record : ∀ record, pc.record = some record →
    (record.id, record.val.u_user_id) ∈ db.uOlsMyzc.image (·.u_user_id)

theorem own_of_none {notes : List Note} {pc : EffectPc} (huser : pc.user = none)
    (hrecord : pc.record = none) : pc.Own db notes := by
  refine ⟨fun user hu => ?_, fun user amount hpc => ?_, fun record hr => ?_⟩
  · rw [huser] at hu
    cases hu
  · rw [hpc] at huser
    cases huser
  · rw [hrecord] at hr
    cases hr

theorem own_of_record {notes : List Note} {pc : EffectPc} {record : Row UOlsMyzc}
    (hpc : pc.record = some record)
    (hmem : (record.id, record.val.u_user_id) ∈ db.uOlsMyzc.image (·.u_user_id)) :
    pc.Own db notes := by
  refine ⟨fun user hu => ?_, fun user amount hdraw => ?_, fun record' hr => ?_⟩
  · cases pc <;> cases hpc <;> cases hu
  · rw [hdraw] at hpc
    cases hpc
  · obtain rfl := Option.some.inj (hpc.symm.trans hr)
    exact hmem

/-- A wallet or a record is read with its own identity. -/
theorem Resumes.own (h : Resumes env db e o)
    (hrecord : ∀ record, e.pc.record = some record →
      (record.id, record.val.u_user_id) ∈ db.uOlsMyzc.image (·.u_user_id)) :
    ∀ pc ∈ o.next, pc.Own db o.notes := by
  cases h with
  | stops => exact List.forall_mem_nil _
  | routes manager pc at_ found routed =>
    refine List.forall_mem_singleton.mpr ?_
    rcases route_cases routed with rfl | rfl | rfl <;> exact own_of_none rfl rfl
  | charges user at_ confirmed found =>
    refine List.forall_mem_cons.mpr ⟨⟨fun user' hu => ?_, fun _ _ hpc => ?_, fun _ hr => ?_⟩,
      List.forall_mem_singleton.mpr (own_of_none rfl rfl)⟩
    · obtain rfl := Option.some.inj hu
      exact Table.mem_image (Table.mem_of_findOne found).1
    · cases hpc
    · cases hr
  | credits user amount stored at_ kept => exact List.forall_mem_nil _
  | deposits newTx row at_ kept => exact List.forall_mem_nil _
  | transfers user at_ confirmed found =>
    refine List.forall_mem_singleton.mpr ⟨fun user' hu => ?_, fun user' amount hpc => ?_,
      fun _ hr => ?_⟩
    · obtain rfl := Option.some.inj hu
      exact Table.mem_image (Table.mem_of_findOne found).1
    · obtain ⟨rfl, _⟩ := EffectPc.addUserDrawCoin.inj hpc
      exact ⟨_, List.mem_cons_self, decide_eq_true rfl⟩
    · cases hr
  | draws user amount stored at_ kept => exact List.forall_mem_nil _
  | withdraws record at_ confirmed found =>
    have hmem := Table.mem_image (f := (·.u_user_id)) (Table.mem_of_findOne found).1
    refine List.forall_mem_singleton.mpr (own_of_record rfl ?_)
    exact hmem
  | refuses record at_ confirmed found =>
    have hmem := Table.mem_image (f := (·.u_user_id)) (Table.mem_of_findOne found).1
    refine List.forall_mem_singleton.mpr (own_of_record rfl ?_)
    exact hmem
  | looksUp record at_ =>
    have hmem := hrecord record (by rw [at_]; rfl)
    exact List.forall_mem_singleton.mpr (own_of_record rfl hmem)
  | settles record at_ => exact List.forall_mem_nil _

/-- The wallets after a step are those before it, but for the save of an effect. -/
theorem step_wallets (hstep : step cfg env s l = some s') :
    s'.db.uOlsWallet = s.db.uOlsWallet ∨ ∃ e ∈ s.effects, ∃ user stored, e.pc.user = some user ∧
      s'.db.uOlsWallet = s.db.uOlsWallet.save ⟨user.id, stored⟩ ∧
        stored.identity = user.val.identity ∧
          ((∃ n ∈ s'.history, n.writesWallet user.id = true) ∨
            ∃ amount, e.pc = .addUserDrawCoin user amount) := by
  rcases step_db hstep with db | ⟨save, db⟩ | ⟨e, he, rfl, db⟩ | ⟨_, _, _, _, _, db⟩
  · exact Or.inl (by rw [db])
  · exact Or.inl (by rw [db, (run_frame save s.db).1])
  · rw [db]
    rcases (resumes env s.db e).wallets with hsame | ⟨user, stored, huser, hsave, hid, hwrites⟩
    · exact Or.inl hsame
    · refine Or.inr ⟨e, he, user, stored, huser, hsave, hid, hwrites.imp_left ?_⟩
      rintro ⟨n, hn, hnote⟩
      refine ⟨n, ?_, hnote⟩
      rw [effect_history hstep]
      exact List.mem_append_left _ hn
  · exact Or.inl (by rw [db])

/-- The records after a step are those before it, but for the save of an effect, which is noted,
or the hash that is stored in a record without one. -/
theorem step_withdrawals (hstep : step cfg env s l = some s') :
    s'.db.uOlsMyzc = s.db.uOlsMyzc ∨
      (∃ e ∈ s.effects, ∃ record, e.pc.record = some record ∧
        s'.db.uOlsMyzc = s.db.uOlsMyzc.save record ∧
          ∃ n ∈ s'.history, n.writesRecord record.id = true) ∨
      ∃ record txhash row, s.db.uOlsMyzc.findById record = some row ∧ row.val.txhash = "" ∧
        s'.db.uOlsMyzc = s.db.uOlsMyzc.save ⟨record, { row.val with txhash }⟩ := by
  rcases step_db hstep with db | ⟨save, db⟩ | ⟨e, he, rfl, db⟩ | ⟨k, txhash, row, h1, h2, db⟩
  · exact Or.inl (by rw [db])
  · exact Or.inl (by rw [db, (run_frame save s.db).2.1])
  · rw [db]
    rcases (resumes env s.db e).withdrawals with hsame | ⟨record, hrecord, hsave, n, hn, hnote⟩
    · exact Or.inl hsame
    · refine Or.inr (Or.inl ⟨e, he, record, hrecord, hsave, n, ?_, hnote⟩)
      rw [effect_history hstep]
      exact List.mem_append_left _ hn
  · exact Or.inr (Or.inr ⟨k, txhash, row, h1, h2, by rw [db]⟩)

theorem holding_step (ha : Attributed db s) (h : Holding db s)
    (hstep : step cfg env s l = some s') : Holding db s' := by
  have hsub := history_subset hstep
  have hresumes {e : Effect} (he : e ∈ s.effects) := (resumes env s.db e).own fun r hr => by
    rw [ha.users]
    exact h.record e he r hr
  refine ⟨fun e he user hu => ?_, fun e he user amount hpc => ?_, fun e he record hr => ?_⟩
  · rcases effect_from hstep he with hold | hnew | ⟨e₁, he₁, _, pc, hmem, rfl⟩
    · exact h.user e hold user hu
    · rw [hnew] at hu
      cases hu
    · rw [← ha.identities]
      exact (hresumes he₁ pc hmem).user user hu
  · rcases effect_from hstep he with hold | hnew | ⟨e₁, he₁, rfl, pc, hmem, rfl⟩
    · obtain ⟨n, hn, hnote⟩ := h.drawing e hold user amount hpc
      exact ⟨n, hsub hn, hnote⟩
    · rw [hnew] at hpc
      cases hpc
    · obtain ⟨n, hn, hnote⟩ := (hresumes he₁ pc hmem).drawing user amount hpc
      refine ⟨n, ?_, hnote⟩
      rw [effect_history hstep]
      exact List.mem_append_left _ hn
  · rcases effect_from hstep he with hold | hnew | ⟨e₁, he₁, _, pc, hmem, rfl⟩
    · exact h.record e hold record hr
    · rw [hnew] at hr
      cases hr
    · rw [← ha.users]
      exact (hresumes he₁ pc hmem).record record hr

theorem attributed_step (ha : Attributed db s) (h : Holding db s)
    (hstep : step cfg env s l = some s') : Attributed db s' := by
  have hsub := history_subset hstep
  have hmanager : s'.db.sManagerWallet = s.db.sManagerWallet := by
    rcases step_db hstep with db | ⟨save, db⟩ | ⟨e, he, _, db⟩ | ⟨_, _, _, _, _, db⟩
    · rw [db]
    · rw [db, (run_frame save s.db).2.2]
    · rw [db, (resumes env s.db e).frame.2]
    · rw [db]
  refine ⟨hmanager.trans ha.manager, ?_, ?_, fun u hu => ?_, fun k row hrow hk => ?_⟩
  · rcases step_wallets hstep with hsame | ⟨e, he, user, stored, huser, hsave, hid, _⟩
    · rw [hsame]
      exact ha.identities
    · have hmem := h.user e he user huser
      rw [← ha.identities, ← hid] at hmem
      rw [hsave, Table.image_save hmem]
      exact ha.identities
  · rcases step_withdrawals hstep with hsame | ⟨e, he, record, hrecord, hsave, _⟩ |
      ⟨k, txhash, row, hrow, _, hsave⟩
    · rw [hsame]
      exact ha.users
    · have hmem := h.record e he record hrecord
      rw [← ha.users] at hmem
      rw [hsave, Table.image_save hmem]
      exact ha.users
    · obtain ⟨hmem, rfl⟩ := Table.mem_of_findById hrow
      have himage : (row.id, row.val.u_user_id) ∈ s.db.uOlsMyzc.image (·.u_user_id) :=
        Table.mem_image hmem
      rw [hsave]
      refine (Table.image_save ?_).trans ha.users
      exact himage
  · have hold := ha.wallet u fun n hn => hu n (hsub hn)
    rcases step_wallets hstep with hsame | ⟨e, he, user, stored, _, hsave, _, hwrites⟩
    · rw [hsame]
      exact hold
    · have hnoted : ∃ n ∈ s'.history, n.writesWallet user.id = true := by
        rcases hwrites with hnoted | ⟨amount, hpc⟩
        · exact hnoted
        · obtain ⟨n, hn, hnote⟩ := h.drawing e he user amount hpc
          exact ⟨n, hsub hn, hnote⟩
      have hne : u ≠ user.id := by
        rintro rfl
        obtain ⟨n, hn, hnote⟩ := hnoted
        rw [hu n hn] at hnote
        cases hnote
      rw [hsave]
      refine (Table.findById_save_ne ?_).trans hold
      exact hne
  · obtain ⟨row', hrow', hstatus, hhash⟩ := ha.record k row hrow fun n hn => hk n (hsub hn)
    rcases step_withdrawals hstep with hsame | ⟨e, he, record, _, hsave, n, hn, hnote⟩ |
      ⟨k', txhash, row₁, hrow₁, hblank, hsave⟩
    · rw [hsame]
      exact ⟨row', hrow', hstatus, hhash⟩
    · have hne : k ≠ record.id := by
        rintro rfl
        rw [hk n hn] at hnote
        cases hnote
      rw [hsave, Table.findById_save_ne hne]
      exact ⟨row', hrow', hstatus, hhash⟩
    · by_cases hid : k = k'
      · subst hid
        obtain rfl := Option.some.inj (hrow₁.symm.trans hrow')
        rw [hsave]
        refine ⟨_, Table.findById_save_self hrow₁, hstatus, fun hne => ?_⟩
        rw [hhash hne] at hblank
        exact absurd hblank hne
      · rw [hsave, Table.findById_save_ne hid]
        exact ⟨row', hrow', hstatus, hhash⟩

end Wallets

section Records

variable {cfg : Config} {env : Env} {db : Db} {strict : Prop} {s s' : Sys} {l : Label}
  {e : Effect} {o : Outcome} {new : List (Row UOlsMyzr)}

theorem row_of_blank {entity : MyzrEntity} {row : UOlsMyzr} (h : entity.Blank)
    (hrow : entity.row env = some row) : row.Blank ∧ env.strict = false := by
  obtain ⟨huser, haddr, hhash, hcreated⟩ := h
  simp only [MyzrEntity.row, huser, haddr, hhash, hcreated, Env.column, Option.none_or,
    Option.bind_eq_bind, Option.bind_eq_some_iff, Option.pure_def, Option.some.injEq] at hrow
  obtain ⟨user, hu, addr, ha, coinname, _, type, _, txhash, ht, num, _, value, _, created, hc,
    status, _, rfl⟩ := hrow
  obtain ⟨hstrict, hu⟩ := Option.ite_none_left_eq_some.mp hu
  obtain ⟨_, ha⟩ := Option.ite_none_left_eq_some.mp ha
  obtain ⟨_, hc⟩ := Option.ite_none_left_eq_some.mp hc
  refine ⟨⟨(Option.some.inj hu).symm, (Option.some.inj ha).symm, ?_, (Option.some.inj hc).symm⟩, ?_⟩
  · exact (Option.some.inj ht).symm
  · exact Bool.not_eq_true _ ▸ hstrict

/-- What the step of an effect adds to the deposit records. -/
structure Adds (env : Env) (db : Db) (e : Effect) (o : Outcome) (added : List (Row UOlsMyzr)) :
    Prop where
  rows : o.db.uOlsMyzr.rows = db.uOlsMyzr.rows ++ added
  blank : ∀ row ∈ added, row.val.Blank
  strict : env.strict = true → added = []
  next : ∀ pc ∈ o.next, ∀ newTx, pc = .saveMyzr newTx → newTx.Blank
  budget : added.length + (o.next.map fun pc => { e with pc }).countP (fun e => e.pc.recording) ≤
    o.notes.countP Note.callsAddUserCoin + if e.pc.recording then 1 else 0

theorem blank_of_not_recording {pc : EffectPc} (hpc : pc.recording = false) :
    ∀ newTx, pc = .saveMyzr newTx → newTx.Blank := by
  intro newTx h
  rw [h] at hpc
  cases hpc

/-- A step that ends the effect, or lets it wait where it records nothing. -/
theorem adds_nothing (hdb : o.db.uOlsMyzr = db.uOlsMyzr)
    (hnext : ∀ pc ∈ o.next, pc.recording = false) : ∃ added, Adds env db e o added := by
  refine ⟨[], by rw [hdb, List.append_nil], List.forall_mem_nil _, fun _ => rfl,
    fun pc hpc => blank_of_not_recording (hnext pc hpc), ?_⟩
  have hcount : (o.next.map fun pc => { e with pc }).countP (fun e => e.pc.recording) = 0 := by
    rw [List.countP_map, List.countP_eq_zero]
    intro pc hpc
    exact Bool.eq_false_iff.mp (hnext pc hpc)
  rw [List.length_nil, hcount]
  omega

/-- The step of an effect adds at most its own record, and it is blank. -/
theorem Resumes.adds (h : Resumes env db e o)
    (hentity : ∀ newTx, e.pc = .saveMyzr newTx → newTx.Blank) :
    ∃ added, Adds env db e o added := by
  cases h with
  | stops => exact adds_nothing rfl (List.forall_mem_nil _)
  | routes manager pc at_ found routed =>
    refine adds_nothing rfl (List.forall_mem_singleton.mpr ?_)
    rcases route_cases routed with rfl | rfl | rfl <;> rfl
  | charges user at_ confirmed found =>
    refine ⟨[], (List.append_nil _).symm, List.forall_mem_nil _, fun _ => rfl,
      List.forall_mem_cons.mpr ⟨blank_of_not_recording rfl, List.forall_mem_singleton.mpr ?_⟩,
      Nat.le_add_right 1 _⟩
    intro newTx hpc
    obtain rfl := EffectPc.saveMyzr.inj hpc
    exact ⟨rfl, rfl, rfl, rfl⟩
  | credits user amount stored at_ kept => exact adds_nothing rfl (List.forall_mem_nil _)
  | deposits newTx row at_ kept =>
    obtain ⟨hblank, hstrict⟩ := row_of_blank (hentity newTx at_) kept
    refine ⟨[⟨db.uOlsMyzr.nextId, row⟩], rfl, List.forall_mem_singleton.mpr hblank, fun hc => ?_,
      List.forall_mem_nil _, ?_⟩
    · rw [hstrict] at hc
      cases hc
    · rw [at_]
      exact Nat.le_refl _
  | transfers user at_ confirmed found =>
    exact adds_nothing rfl (List.forall_mem_singleton.mpr rfl)
  | draws user amount stored at_ kept => exact adds_nothing rfl (List.forall_mem_nil _)
  | withdraws record at_ confirmed found =>
    exact adds_nothing rfl (List.forall_mem_singleton.mpr rfl)
  | refuses record at_ confirmed found =>
    exact adds_nothing rfl (List.forall_mem_singleton.mpr rfl)
  | looksUp record at_ => exact adds_nothing rfl (List.forall_mem_singleton.mpr rfl)
  | settles record at_ => exact adds_nothing rfl (List.forall_mem_nil _)

/-- A step that adds no record and starts at most a new effect. -/
theorem recording_frame (h : Recording db strict s new) (hdb : s'.db.uOlsMyzr = s.db.uOlsMyzr)
    (heffects : ∀ e ∈ s'.effects, e ∈ s.effects ∨ e.pc = .manager)
    (hcount : s'.effects.countP (fun e => e.pc.recording) ≤
      s.effects.countP (fun e => e.pc.recording))
    (hhistory : s.history.countP Note.callsAddUserCoin ≤
      s'.history.countP Note.callsAddUserCoin) : ∃ new', Recording db strict s' new' := by
  refine ⟨new, by rw [hdb]; exact h.rows, h.blank, h.strict, fun e he newTx hpc => ?_, ?_⟩
  · rcases heffects e he with hold | hnew
    · exact h.entities e hold newTx hpc
    · rw [hnew] at hpc
      cases hpc
  · have hbudget := h.budget
    omega

theorem recording_step (hstrict : strict → env.strict = true) (h : Recording db strict s new)
    (hstep : step cfg env s l = some s') : ∃ new', Recording db strict s' new' := by
  cases step_change hstep with
  | arrives _ _ _ dbs _ effects history =>
    exact recording_frame h (by rw [dbs]) (fun e he => Or.inl (effects ▸ he)) (by rw [effects])
      (by rw [history])
  | scans notes _ dbs _ effects history =>
    refine recording_frame h (by rw [dbs]) (fun e he => Or.inl (effects ▸ he)) (by rw [effects]) ?_
    rw [history, List.countP_append]
    omega
  | waits _ _ _ _ dbs _ effects history =>
    exact recording_frame h (by rw [dbs]) (fun e he => Or.inl (effects ▸ he)) (by rw [effects])
      (by rw [history])
  | returns _ _ _ notes _ dbs _ effects history =>
    refine recording_frame h (by rw [dbs]) (fun e he => Or.inl (effects ▸ he)) (by rw [effects]) ?_
    rw [history, List.countP_append]
    omega
  | starts _ _ save _ notes _ dbs _ effects history =>
    refine recording_frame h (by rw [dbs]; cases save <;> rfl) (fun e he => ?_) ?_ ?_
    · rcases List.mem_cons.mp (effects ▸ he) with rfl | he
      · exact Or.inr rfl
      · exact Or.inl he
    · rw [effects]
      exact Nat.le_refl _
    · rw [history, List.countP_append, List.countP_cons]
      omega
  | runFails _ _ dbs _ effects history =>
    exact recording_frame h (by rw [dbs]) (fun e he => Or.inl (effects ▸ he)) (by rw [effects])
      (by rw [history])
  | effect e mem dbs _ effects history =>
    obtain ⟨added, hadds⟩ := (resumes env s.db e).adds (h.entities e mem)
    have hcount := Lib.InFlight.countP_resume (fun e : Effect => e.pc.recording)
      ((e.resume env s.db).next.map fun pc => { e with pc }) mem
    have hbudget := h.budget
    have hmore := hadds.budget
    refine ⟨new ++ added, ?_, List.forall_mem_append.mpr ⟨h.blank, hadds.blank⟩, fun hs => ?_,
      fun e' he' newTx hpc => ?_, ?_⟩
    · rw [dbs, hadds.rows, h.rows, List.append_assoc]
    · rw [h.strict hs, hadds.strict (hstrict hs), List.append_nil]
    · rcases Lib.InFlight.mem_resume_imp (effects ▸ he') with he' | he'
      · obtain ⟨pc, hmem, rfl⟩ := List.mem_map.mp he'
        exact hadds.next pc hmem newTx hpc
      · exact h.entities e' he' newTx hpc
    · rw [effects, history, List.length_append, List.countP_append]
      omega
  | effectFails e _ dbs _ effects history =>
    refine recording_frame h (by rw [dbs])
      (fun e he => Or.inl (List.mem_of_mem_erase (effects ▸ he))) ?_ (by rw [history])
    rw [effects]
    exact Lib.InFlight.countP_erase_le _
  | crash dbs _ effects history =>
    refine recording_frame h (by rw [dbs]) (fun e he => absurd (effects ▸ he) List.not_mem_nil) ?_
      (by rw [history])
    rw [effects]
    exact Nat.zero_le _
  | storeTxhash _ _ _ _ _ dbs _ effects history =>
    exact recording_frame h (by rw [dbs]) (fun e he => Or.inl (effects ▸ he)) (by rw [effects])
      (by rw [history])

theorem recording_run (strict : Prop) {redis : Option Nat} {ms : List Move}
    (hstrict : ∀ m ∈ ms, strict → m.env.strict = true)
    (hrun : run (next cfg) (Sys.start db redis) ms = some s) :
    ∃ new, Recording db strict s new := by
  have hstart : Recording db strict (Sys.start db redis) [] :=
    ⟨(List.append_nil _).symm, List.forall_mem_nil _, fun _ => rfl,
      fun _ he => absurd he List.not_mem_nil, Nat.le_refl _⟩
  refine Lib.Machine.run_induction_mem (P := fun s => ∃ new, Recording db strict s new)
    (fun s m s' hs hm hstep => ?_) ⟨[], hstart⟩ hstrict hrun
  obtain ⟨new, hnew⟩ := hs
  exact recording_step hm hnew hstep

end Records

/-- In every run: the manager, whose each wallet is and whose each withdrawal record never change;
a wallet that was not saved for is as it was, and a record that was not settled has its status and
the hash it had. -/
theorem writes_attributed (cfg : Config) (db : Db) (redis : Option Nat) (ms : List Move) (s : Sys)
    (hrun : run (next cfg) (Sys.start db redis) ms = some s) : Attributed db s := by
  have hstart : Attributed db (Sys.start db redis) :=
    ⟨rfl, rfl, rfl, fun _ _ => rfl, fun _ row hrow _ => ⟨row, hrow, rfl, fun _ => rfl⟩⟩
  have hholding : Holding db (Sys.start db redis) :=
    ⟨fun _ he => absurd he List.not_mem_nil, fun _ he => absurd he List.not_mem_nil,
      fun _ he => absurd he List.not_mem_nil⟩
  exact (Lib.Machine.run_invariant (P := fun s => Attributed db s ∧ Holding db s)
    (fun _ _ _ hs hstep => ⟨attributed_step hs.1 hs.2 hstep, holding_step hs.1 hs.2 hstep⟩)
    ⟨hstart, hholding⟩ hrun).1

/-- The withdrawal is settled and the wallet is as it was. -/
theorem writes_attributed_settled :
    ∃ s, run (next sampleConfig) (Sys.start sampleWithdrawalDb none) sampleStoredFirst = some s ∧
      .settled samplePayout 1 2 ∈ s.history ∧
        s.db.uOlsWallet.findById 1 = sampleWithdrawalDb.uOlsWallet.findById 1 := by
  have h : (run (next sampleConfig) (Sys.start sampleWithdrawalDb none) sampleStoredFirst).any
      (fun s => .settled samplePayout 1 2 ∈ s.history ∧
        ∀ n ∈ s.history, n.writesWallet 1 = false) = true := by
    decide +kernel
  obtain ⟨s, hs, hp⟩ := (Option.any_eq_true _ _).mp h
  obtain ⟨hsettled, hnone⟩ := of_decide_eq_true hp
  have hattributed := writes_attributed sampleConfig sampleWithdrawalDb none sampleStoredFirst s hs
  exact ⟨s, hs, hsettled, hattributed.wallet 1 hnone⟩

/-- In every run the deposit records only grow, by at most one for each call of `addUserCoin`,
and no new one names its user, its sender, its transaction or its time; in strict mode there is
none. -/
theorem deposit_records_blank (cfg : Config) (db : Db) (redis : Option Nat) (ms : List Move)
    (s : Sys) (hrun : run (next cfg) (Sys.start db redis) ms = some s) :
    ∃ new, s.db.uOlsMyzr.rows = db.uOlsMyzr.rows ++ new ∧ (∀ row ∈ new, row.val.Blank) ∧
      new.length ≤ s.history.countP Note.callsAddUserCoin ∧
        ((∀ m ∈ ms, m.env.strict = true) → new = []) := by
  obtain ⟨new, h⟩ := recording_run (∀ m ∈ ms, m.env.strict = true) (fun m hm hs => hs m hm) hrun
  have hbudget := h.budget
  exact ⟨new, h.rows, h.blank, by omega, h.strict⟩

/-- A deposit is recorded where MySQL is not strict. -/
def sampleRecorded : List Move :=
  (sampleScanTo 1 sampleLog ++ sampleReads sampleLog 1 ++ sampleSaves sampleLog 1 sampleUser).map
    (Move.mk { sampleEnv with strict := false })

theorem deposit_records_blank_recorded :
    ∃ s, run (next sampleConfig) (Sys.start sampleDb none) sampleRecorded = some s ∧
      s.db.uOlsMyzr.rows ≠ [] ∧ ∀ row ∈ s.db.uOlsMyzr.rows, row.val.Blank := by
  have h : (run (next sampleConfig) (Sys.start sampleDb none) sampleRecorded).any
      (fun s => s.db.uOlsMyzr.rows ≠ []) = true := by
    decide +kernel
  obtain ⟨s, hs, hp⟩ := (Option.any_eq_true _ _).mp h
  obtain ⟨new, hrows, hblank, _, _⟩ :=
    deposit_records_blank sampleConfig sampleDb none sampleRecorded s hs
  refine ⟨s, hs, of_decide_eq_true hp, ?_⟩
  rw [hrows]
  exact List.forall_mem_append.mpr ⟨List.forall_mem_nil _, hblank⟩

end OlsDapp.Handler
