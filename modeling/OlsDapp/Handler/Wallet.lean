import OlsDapp.Handler.Change

/-!
# Wallet saves and the addresses of wallets

`addUserCoin` and `addUserDrawCoin` save the whole entity, with the address it was read
with. So which wallet an address belongs to never changes.
-/

namespace OlsDapp.Handler

open Lib (Row Table)

/-- The log is a deposit to the wallet: it comes from another address than the manager's. -/
def DepositTo (db : Db) (e : TransferEvent) (user : Row UOlsWallet) : Prop :=
  (∃ manager, db.sManagerWallet.findById 1 = some manager ∧
    e.from_ ≠ manager.val.eth_address) ∧
  db.uOlsWallet.findOne (fun w => w.eth_address = some e.to_) = some user

/-- The ids of the wallets with their addresses. -/
def Db.addresses (db : Db) : List (Nat × Option String) :=
  db.uOlsWallet.image (·.eth_address)

section Address

variable {env : Env} {db : Db} {user stored : UOlsWallet}

theorem stored_eth_address (h : user.stored env = some stored) :
    stored.eth_address = user.eth_address := by
  simp only [UOlsWallet.stored, Option.bind_eq_bind, Option.bind_eq_some_iff, Option.pure_def,
    Option.some.injEq] at h
  obtain ⟨_, _, _, _, _, _, rfl⟩ := h
  rfl

theorem addUserCoin_eth_address (user : UOlsWallet) (type : TxType) (amount : Amount) :
    (addUserCoin user type amount).eth_address = user.eth_address := by
  unfold addUserCoin
  split <;> rfl

theorem addUserDrawCoin_eth_address (user : UOlsWallet) (type : TxType) (amount : Amount) :
    (addUserDrawCoin user type amount).eth_address = user.eth_address := by
  unfold addUserDrawCoin
  split <;> rfl

theorem mem_addresses {user : Row UOlsWallet} (h : user ∈ db.uOlsWallet.rows) :
    (user.id, user.val.eth_address) ∈ db.addresses :=
  Table.mem_image h

/-- Saving an entity with the address of its row moves no address. -/
theorem addresses_save (user : Row UOlsWallet) (h : (user.id, user.val.eth_address) ∈ db.addresses)
    (heq : stored.eth_address = user.val.eth_address) :
    (db.uOlsWallet.save ⟨user.id, stored⟩).image (·.eth_address) = db.addresses :=
  Table.image_save (by rw [heq]; exact h)

/-- The owner of an address is found by the addresses alone. -/
theorem findOne_address {db' : Db} (h : db'.addresses = db.addresses) (address : String) :
    (db'.uOlsWallet.findOne fun w => w.eth_address = some address).map (·.id) =
      (db.uOlsWallet.findOne fun w => w.eth_address = some address).map (·.id) := by
  have hfind := fun t : Table UOlsWallet => Table.findOne_image (t := t) (f := (·.eth_address))
    (fun a => decide (a = some address))
  rw [hfind, hfind]
  exact congrArg (fun l => (l.find? fun x => decide (x.2 = some address)).map (·.1)) h

end Address

section Addressed

/-- The wallet an effect has read. -/
def EffectPc.user : EffectPc → Option (Row UOlsWallet)
  | .addUserCoin user _ => some user
  | .addUserDrawCoin user _ => some user
  | _ => none

/-- No address has moved since the first state, nor will it: what is still to be saved has
the address it was read with. -/
structure Addressed (db₀ : Db) (s : Sys) : Prop where
  addresses : s.db.addresses = db₀.addresses
  manager : s.db.sManagerWallet = db₀.sManagerWallet
  held : ∀ e ∈ s.effects, ∀ user, e.pc.user = some user →
    (user.id, user.val.eth_address) ∈ db₀.addresses

variable {cfg : Config} {env : Env} {db₀ : Db} {s s' : Sys}

theorem addressed_start (db : Db) (redis : Option Nat) : Addressed db (Sys.start db redis) :=
  ⟨rfl, rfl, fun _ h => absurd h List.not_mem_nil⟩

theorem addresses_congr {db db' : Db} (h : db'.uOlsWallet = db.uOlsWallet) :
    db'.addresses = db.addresses := by
  unfold Db.addresses
  rw [h]

/-- The step of an effect moves no address and reads wallets with theirs. -/
theorem Resumes.addresses {e : Effect} {db : Db} {o : Outcome} (h : Resumes env db e o)
    (hheld : ∀ user, e.pc.user = some user → (user.id, user.val.eth_address) ∈ db.addresses) :
    o.db.addresses = db.addresses ∧ ∀ pc ∈ o.next, ∀ user, pc.user = some user →
      (user.id, user.val.eth_address) ∈ db.addresses := by
  cases h with
  | stops => exact ⟨rfl, List.forall_mem_nil _⟩
  | routes manager pc at_ found routed =>
    refine ⟨rfl, List.forall_mem_singleton.mpr ?_⟩
    intro user huser
    rcases route_cases routed with rfl | rfl | rfl <;> cases huser
  | charges user at_ confirmed found =>
    refine ⟨rfl, List.forall_mem_cons.mpr ⟨?_, List.forall_mem_singleton.mpr ?_⟩⟩
    · intro user' huser'
      cases huser'
      exact mem_addresses (Table.mem_of_findOne found).1
    · intro user' huser'
      cases huser'
  | credits user amount stored at_ kept =>
    have hmem := hheld user (by rw [at_]; rfl)
    have heq := (stored_eth_address kept).trans (addUserCoin_eth_address _ _ _)
    exact ⟨addresses_save user hmem heq, List.forall_mem_nil _⟩
  | deposits newTx row at_ kept => exact ⟨rfl, List.forall_mem_nil _⟩
  | transfers user at_ confirmed found =>
    refine ⟨rfl, List.forall_mem_singleton.mpr ?_⟩
    intro user' huser'
    cases huser'
    exact mem_addresses (Table.mem_of_findOne found).1
  | draws user amount stored at_ kept =>
    have hmem := hheld user (by rw [at_]; rfl)
    have heq := (stored_eth_address kept).trans (addUserDrawCoin_eth_address _ _ _)
    exact ⟨addresses_save user hmem heq, List.forall_mem_nil _⟩
  | withdraws record at_ confirmed found =>
    exact ⟨rfl, List.forall_mem_singleton.mpr (fun _ hu => by cases hu)⟩
  | refuses record at_ confirmed found =>
    exact ⟨rfl, List.forall_mem_singleton.mpr (fun _ hu => by cases hu)⟩
  | looksUp record at_ =>
    exact ⟨rfl, List.forall_mem_singleton.mpr (fun _ hu => by cases hu)⟩
  | settles record at_ => exact ⟨rfl, List.forall_mem_nil _⟩

theorem addressed_step {l : Label} (h : Addressed db₀ s) (hstep : step cfg env s l = some s') :
    Addressed db₀ s' := by
  have hresumes (e : Effect) (he : e ∈ s.effects) :
      (e.resume env s.db).db.addresses = s.db.addresses ∧
        ∀ pc ∈ (e.resume env s.db).next, ∀ user, pc.user = some user →
          (user.id, user.val.eth_address) ∈ s.db.addresses := by
    apply (resumes env s.db e).addresses
    intro user huser
    rw [h.addresses]
    exact h.held e he user huser
  have hdb : s'.db.addresses = s.db.addresses ∧ s'.db.sManagerWallet = s.db.sManagerWallet := by
    rcases step_db hstep with db | ⟨save, db⟩ | ⟨e, he, _, db⟩ | ⟨_, _, _, _, _, db⟩
    · rw [db]
      exact ⟨rfl, rfl⟩
    · obtain ⟨hwallet, _, hmanager⟩ := run_frame save s.db
      rw [db]
      exact ⟨addresses_congr hwallet, hmanager⟩
    · rw [db]
      exact ⟨(hresumes e he).1, (resumes env s.db e).frame.2⟩
    · rw [db]
      exact ⟨rfl, rfl⟩
  refine ⟨hdb.1.trans h.addresses, hdb.2.trans h.manager, ?_⟩
  intro e he user huser
  rcases effect_from hstep he with hold | hnew | ⟨e₁, he₁, _, pc, hpc, rfl⟩
  · exact h.held e hold user huser
  · rw [hnew] at huser
    cases huser
  · rw [← h.addresses]
    exact (hresumes e₁ he₁).2 pc hpc user huser

end Addressed

end OlsDapp.Handler
