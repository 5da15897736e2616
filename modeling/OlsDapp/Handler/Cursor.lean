import OlsDapp.Handler.RealBlock

/-!
# The cursors of a run

A scan reads the tip before it fetches and stores it as the cursor when it has handed everything
over. Blocks come and are replaced meanwhile, scans fail and the process crashes, but the tip does
not fall and one scan runs at a time, so no scan stores a cursor below one stored before it.
-/

namespace OlsDapp.Handler

open Lib.Chain (block)
open Lib.Machine (run)

section Definitions

def Note.cursor : Note → Option Nat
  | .lastCheckedBlock currentBlock _ => some currentBlock
  | _ => none

/-- The cursors stored, the latest first. -/
def cursors (history : List Note) : List Nat := history.filterMap Note.cursor

/-- The cursors ascend, the scan holds none below them and the chain reaches them all. -/
structure Ascends (w : World) : Prop where
  sorted : (cursors w.sys.history).Pairwise (· ≥ ·)
  latest : w.sys.redis = (cursors w.sys.history).head?
  held : ∀ c, w.sys.job.currentBlock = some c → ∀ b ∈ cursors w.sys.history, b ≤ c
  tip : ∀ b ∈ cursors w.sys.history, b < w.chain.length

end Definitions

section Ascends

variable {cfg : Config} {env : Env} {w w' : World} {a : Event} {s' : Sys} {l : Label}

theorem cursors_quiet {notes : List Note} (h : ∀ n ∈ notes, n.ofScan = false)
    (history : List Note) : cursors (notes ++ history) = cursors history := by
  have hnone : notes.filterMap Note.cursor = [] := by
    rw [List.filterMap_eq_nil_iff]
    intro n hn
    have hquiet := h n hn
    cases n with
    | lastCheckedBlock => cases hquiet
    | _ => rfl
  unfold cursors
  rw [List.filterMap_append, hnone, List.nil_append]

theorem cursors_step (hstep : step cfg env w.sys l = some s') (hl : l ≠ .redisSet) :
    cursors s'.history = cursors w.sys.history := by
  cases step_scan hstep with
  | beside _ _ _ notes quiet history =>
    rw [history]
    exact cursors_quiet quiet _
  | returns r _ _ _ _ _ _ _ _ _ _ notes quiet history =>
    rw [history]
    exact cursors_quiet quiet _
  | throws r _ _ _ _ _ history => rw [history]
  | crashes _ _ _ history => rw [history]
  | stores => exact absurd rfl hl
  | starts => rfl
  | tip => rfl
  | cursor => rfl
  | fetches => rfl
  | calls => rfl
  | finishes => rfl
  | fails => rfl

theorem ascends_start (chain : List (List TransferEvent)) (db : Db) :
    Ascends (World.start chain db) :=
  ⟨List.Pairwise.nil, rfl, nofun, nofun⟩

/-- The tip does not fall. -/
theorem ascends_chain (h : Ascends w) {chain : List (List TransferEvent)}
    (hlength : w.chain.length ≤ chain.length) : Ascends { w with chain } :=
  ⟨h.sorted, h.latest, h.held, fun b hb => (h.tip b hb).trans_le hlength⟩

/-- The scan stores the tip it has held since all the cursors before it. -/
theorem ascends_stores (hcovers : Covers cfg w) (h : Ascends w)
    (hstep : step cfg env w.sys .redisSet = some s') : Ascends { w with sys := s' } := by
  simp only [step] at hstep
  split at hstep
  · next c evs hjob =>
    obtain rfl := Option.some.inj hstep
    have hc : w.sys.job.currentBlock = some c := by rw [hjob]; rfl
    refine ⟨List.pairwise_cons.mpr ⟨h.held c hc, h.sorted⟩, rfl, fun _ hc => (by cases hc), ?_⟩
    exact List.forall_mem_cons.mpr ⟨hcovers.tip c hc, h.tip⟩
  · cases hstep

theorem ascends_sys (hcovers : Covers cfg w) (h : Ascends w) (hanswers : w.answers l = true)
    (hstep : step cfg env w.sys l = some s') : Ascends { w with sys := s' } := by
  by_cases hl : l = .redisSet
  · subst hl
    exact ascends_stores hcovers h hstep
  · have hcursors := cursors_step hstep hl
    refine ⟨?_, ?_, fun c hc b hb => ?_, fun b hb => h.tip b (hcursors ▸ hb)⟩
    · show (cursors s'.history).Pairwise (· ≥ ·)
      rw [hcursors]
      exact h.sorted
    · show s'.redis = (cursors s'.history).head?
      rw [hcursors, redis_step hstep hl]
      exact h.latest
    · have hold : b ∈ cursors w.sys.history := hcursors ▸ hb
      rcases currentBlock_step hstep hc with hheld | htold
      · exact h.held c hheld b hold
      · subst htold
        have hlength : c + 1 = w.chain.length := of_decide_eq_true hanswers
        have htip := h.tip b hold
        omega

theorem ascends_step (hcovers : Covers cfg w) (h : Ascends w)
    (hstep : w.step cfg a = some w') : Ascends w' := by
  cases a with
  | grow blk =>
    obtain rfl := Option.some.inj hstep
    refine ascends_chain h ?_
    rw [List.length_append]
    omega
  | reorg depth blocks =>
    obtain ⟨⟨_, hblocks, hdepth⟩, rfl⟩ := World.step_reorg hstep
    refine ascends_chain h ?_
    have hlength := Lib.Chain.length_replaceLast blocks hdepth
    omega
  | sys env l =>
    obtain ⟨hanswers, s', hs', hw'⟩ := World.step_sys hstep
    have hsys := ascends_sys hcovers h hanswers hs'
    rcases hw' with ⟨_, rfl⟩ | ⟨_, rfl⟩
    · exact ⟨hsys.sorted, hsys.latest, hsys.held, hsys.tip⟩
    · exact hsys

end Ascends

/-- In every run, whatever the chain did meanwhile and wherever scans failed: the cursors that were
stored ascend, the last of them is the one in redis and none is past the tip; and every log that is
in a block far enough below the cursor now has been handed over. -/
theorem cursors_ascend (cfg : Config) (chain : List (List TransferEvent)) (db : Db)
    (as : List Event) (w : World)
    (hrun : run (World.step cfg) (World.start chain db) as = some w) :
    (cursors w.sys.history).Pairwise (· ≥ ·) ∧
      w.sys.redis = (cursors w.sys.history).head? ∧
      (∀ c ∈ cursors w.sys.history, c < w.chain.length) ∧
      ∀ c, w.sys.redis = some c → ∀ b, cfg.startBlock - cfg.blockOffset ≤ b →
        b + cfg.blockOffset ≤ c → ∀ e ∈ block w.chain b, .handled e ∈ w.sys.history := by
  have h : Covers cfg w ∧ Ascends w := by
    refine Lib.Machine.run_invariant (P := fun w => Covers cfg w ∧ Ascends w)
      (fun w a w' hw hstep => ?_) ⟨covers_start db, ascends_start chain db⟩ hrun
    exact ⟨covers_step hw.1 hstep, ascends_step hw.1 hw.2 hstep⟩
  obtain ⟨hcovers, hascends⟩ := h
  exact ⟨hascends.sorted, hascends.latest, hascends.tip, fun c hc => (hcovers.cursor c hc).2⟩

/-- Two scans store their cursors, and a block is replaced between them. -/
def sampleTwoCursors : List Event :=
  sampleReorganised ++ [.sys sampleEnv .redisSet, .grow []] ++
    (sampleRescan 3 sampleLaterLog).map (.sys sampleEnv)

theorem cursors_ascend_twice : ∃ w,
    run (World.step sampleConfig) (World.start [[], [sampleLog]] sampleDb) sampleTwoCursors =
      some w ∧ cursors w.sys.history = [3, 2] ∧
      (cursors w.sys.history).Pairwise (· ≥ ·) ∧
      w.sys.redis = (cursors w.sys.history).head? ∧
      (∀ c ∈ cursors w.sys.history, c < w.chain.length) ∧
      ∀ c, w.sys.redis = some c → ∀ b, sampleConfig.startBlock - sampleConfig.blockOffset ≤ b →
        b + sampleConfig.blockOffset ≤ c → ∀ e ∈ block w.chain b, .handled e ∈ w.sys.history := by
  have h : (run (World.step sampleConfig) (World.start [[], [sampleLog]] sampleDb)
      sampleTwoCursors).any (fun w => cursors w.sys.history = [3, 2]) = true := by
    decide +kernel
  obtain ⟨w, hw, hcursors⟩ := (Option.any_eq_true _ _).mp h
  exact ⟨w, hw, of_decide_eq_true hcursors,
    cursors_ascend sampleConfig [[], [sampleLog]] sampleDb sampleTwoCursors w hw⟩

end OlsDapp.Handler
