import OlsDapp.Lib.Machine

/-!
# The websocket and its reconnection

`Web3Client` and `Web3Handler` keep a connection of the same kind. The socket of the constructor
is replaced as soon as it closes, every later one by a timer, and each replacement takes over the
provider and the contract; the handler also subscribes again. Sockets close at any time, a timer
fires at its time or later. However they interleave there is one open socket or one timer, so a
log is delivered once or not at all, and the reconnections are spaced.
-/

namespace OlsDapp.Handler.Connection

open Lib.Machine (run)

section Definitions

/-- What `connection.onclose` does: the constructor's calls `onWsClose`, that of `onWsClose` sets
a timer. -/
inductive OnClose where
  | onWsClose
  | setTimeout
  deriving DecidableEq

structure Socket where
  id : Nat
  onclose : OnClose
  opened : Nat
  closed : Bool
  deriving DecidableEq

/-- The connection of one of the two objects. Times are in milliseconds. -/
structure Conn where
  now : Nat
  /-- The latest first. -/
  sockets : List Socket
  /-- When the pending timers are due. -/
  timers : List Nat
  /-- The socket of `this.web3`. -/
  provider : Nat
  /-- The socket `this.token` was created on. -/
  token : Nat
  /-- The sockets `Transfer` is subscribed on. -/
  subscriptions : List Nat
  /-- The logs so far, and to which socket each was delivered. -/
  logs : Nat
  data : List (Nat × Nat)
  deriving DecidableEq

inductive Event where
  | passes (ms : Nat)
  | closes (id : Nat)
  | fires (due : Nat)
  /-- The contract emits a `Transfer`. -/
  | log

/-- Who keeps the connection; `reconnectTimeout` is of `config.rpc`. -/
structure Owner where
  attaches : Bool
  reconnectTimeout : Nat

/-- `onWsClose` of the client does not attach handlers. -/
def web3Client (reconnectTimeout : Nat) : Owner := ⟨false, reconnectTimeout⟩

def web3Handler (reconnectTimeout : Nat) : Owner := ⟨true, reconnectTimeout⟩

namespace Conn

def isOpen (c : Conn) (id : Nat) : Bool := c.sockets.any fun s => s.id = id && !s.closed

def newSocket (c : Conn) (onclose : OnClose) : Socket := ⟨c.sockets.length, onclose, c.now, false⟩

def setProvider (c : Conn) (socket : Socket) : Conn :=
  { c with sockets := socket :: c.sockets, provider := socket.id }

def createContracts (c : Conn) : Conn := { c with token := c.provider }

def attachHandlers (c : Conn) : Conn := { c with subscriptions := c.token :: c.subscriptions }

/-- The constructor, at time 0. -/
def start (o : Owner) : Conn :=
  let c := (⟨0, [⟨0, .onWsClose, 0, false⟩], [], 0, 0, [], 0, []⟩ : Conn).createContracts
  if o.attaches then c.attachHandlers else c

def onWsClose (o : Owner) (c : Conn) : Conn :=
  let c := (c.setProvider (c.newSocket .setTimeout)).createContracts
  if o.attaches then c.attachHandlers else c

/-- The socket is closed. -/
def close (c : Conn) (id : Nat) : Conn :=
  { c with sockets := c.sockets.map fun s => if s.id = id then { s with closed := true } else s }

/-- A log reaches every subscription whose socket is open. -/
def deliver (c : Conn) : Conn :=
  { c with
    logs := c.logs + 1
    data := (c.subscriptions.filter c.isOpen).map (Prod.mk c.logs) ++ c.data }

def step (o : Owner) (c : Conn) : Event → Option Conn
  | .passes ms => some { c with now := c.now + ms }
  | .closes id =>
    match c.sockets.find? fun s => s.id = id && !s.closed with
    | some socket =>
      match socket.onclose with
      | .onWsClose => some ((c.close id).onWsClose o)
      | .setTimeout =>
        some { c.close id with timers := (c.now + o.reconnectTimeout) :: c.timers }
    | none => none
  | .fires due =>
    if due ∈ c.timers ∧ due ≤ c.now then
      some (({ c with timers := c.timers.erase due } : Conn).onWsClose o)
    else none
  | .log => some c.deliver

/-- One socket is open, everything goes by it and no timer is set. -/
structure Open (o : Owner) (c : Conn) (socket : Socket) : Prop where
  opened : c.sockets.filter (fun s => !s.closed) = [socket]
  provider : c.provider = socket.id
  token : c.token = socket.id
  subscribed : o.attaches = true → c.subscriptions.filter c.isOpen = [socket.id]
  timers : c.timers = []

/-- No socket is open and one timer will open the next. -/
structure Waiting (o : Owner) (c : Conn) (due : Nat) : Prop where
  closed : ∀ s ∈ c.sockets, s.closed = true
  timers : c.timers = [due]
  due : due ≤ c.now + o.reconnectTimeout

end Conn

end Definitions

section Invariant

variable {o : Owner} {c c' : Conn} {latest : Socket} {rest : List Socket}

/-- Every log so far was delivered at most once. -/
structure Delivered (logs : Nat) (data : List (Nat × Nat)) : Prop where
  past : ∀ x ∈ data, x.1 < logs
  once : ∀ n, data.countP (fun x => x.1 = n) ≤ 1

/-- No socket is open and no timer is set. -/
structure Lost (o : Owner) (c : Conn) : Prop where
  closed : ∀ s ∈ c.sockets, s.closed = true ∧ s.id < c.sockets.length
  subscribed : ∀ id ∈ c.subscriptions, id < c.sockets.length
  unsubscribed : o.attaches = false → c.subscriptions = []
  opened : (c.sockets.length - 1) * o.reconnectTimeout ≤ c.now
  timers : c.timers = []
  delivered : Delivered c.logs c.data

/-- What every step keeps. Of `n` sockets the latest was opened at `(n - 2) * reconnectTimeout` at
the earliest, since only the first two can follow each other at once. -/
structure Kept (o : Owner) (c : Conn) (latest : Socket) (rest : List Socket) : Prop where
  sockets : c.sockets = latest :: rest
  id : latest.id = rest.length
  closed : ∀ s ∈ rest, s.closed = true ∧ s.id < rest.length
  provider : c.provider = latest.id
  token : c.token = latest.id
  subscribed : o.attaches = true → ∃ ids, c.subscriptions = latest.id :: ids ∧
    ∀ id ∈ ids, id < latest.id
  unsubscribed : o.attaches = false → c.subscriptions = []
  first : latest.onclose = .onWsClose → rest = []
  opened : (rest.length - 1) * o.reconnectTimeout ≤ latest.opened ∧ latest.opened ≤ c.now
  timers : if latest.closed then latest.onclose = .setTimeout ∧ ∃ due, c.timers = [due] ∧
    latest.opened + o.reconnectTimeout ≤ due ∧ due ≤ c.now + o.reconnectTimeout
    else c.timers = []
  delivered : Delivered c.logs c.data

theorem onWsClose_eq (o : Owner) (c : Conn) : c.onWsClose o =
    { c with
      sockets := c.newSocket .setTimeout :: c.sockets
      provider := c.sockets.length
      token := c.sockets.length
      subscriptions := if o.attaches then c.sockets.length :: c.subscriptions
        else c.subscriptions } := by
  unfold Conn.onWsClose
  cases o.attaches <;> rfl

/-- A connection that is lost is replaced. -/
theorem kept_onWsClose (h : Lost o c) :
    Kept o (c.onWsClose o) (c.newSocket .setTimeout) c.sockets := by
  rw [onWsClose_eq]
  refine ⟨rfl, rfl, h.closed, rfl, rfl, fun ha => ⟨c.subscriptions, ?_, h.subscribed⟩,
    fun ha => ?_, fun hc => absurd hc nofun, ⟨h.opened, Nat.le_refl _⟩, h.timers, h.delivered⟩
  · simp only [ha, if_true]
    rfl
  · simp only [ha, Bool.false_eq_true, if_false]
    exact h.unsubscribed ha

theorem kept_start (o : Owner) : Kept o (Conn.start o) ⟨0, .onWsClose, 0, false⟩ [] := by
  have hstart : Conn.start o = ⟨0, [⟨0, .onWsClose, 0, false⟩], [], 0, 0,
      if o.attaches then [0] else [], 0, []⟩ := by
    unfold Conn.start
    cases o.attaches <;> rfl
  rw [hstart]
  refine ⟨rfl, rfl, List.forall_mem_nil _, rfl, rfl, fun ha => ⟨[], ?_, List.forall_mem_nil _⟩,
    fun ha => ?_, fun _ => rfl, ⟨?_, Nat.le_refl _⟩, rfl, List.forall_mem_nil _,
    fun _ => Nat.zero_le _⟩
  · simp only [ha, if_true]
  · simp only [ha, Bool.false_eq_true, if_false]
  · show (0 - 1) * o.reconnectTimeout ≤ 0
    omega

/-- Only the latest socket can close. -/
theorem Kept.find (h : Kept o c latest rest) {id : Nat} {socket : Socket}
    (hfind : c.sockets.find? (fun s => s.id = id && !s.closed) = some socket) :
    socket = latest ∧ id = latest.id ∧ latest.closed = false := by
  have hp := List.find?_some hfind
  rw [Bool.and_eq_true, decide_eq_true_eq, Bool.not_eq_true'] at hp
  have hmem := List.mem_of_find?_eq_some hfind
  rw [h.sockets] at hmem
  rcases List.mem_cons.mp hmem with rfl | hrest
  · exact ⟨rfl, hp.1.symm, hp.2⟩
  · have hclosed := (h.closed socket hrest).1
    rw [hp.2] at hclosed
    cases hclosed

theorem Kept.close (h : Kept o c latest rest) :
    (c.close latest.id).sockets = { latest with closed := true } :: rest := by
  have hrest : rest.map (fun s => if s.id = latest.id then { s with closed := true } else s) =
      rest := by
    conv_rhs => rw [← List.map_id' rest]
    apply List.map_congr_left
    intro s hs
    have hlt := (h.closed s hs).2
    have hid := h.id
    exact if_neg (by omega)
  show c.sockets.map _ = _
  rw [h.sockets, List.map_cons, if_pos rfl, hrest]

theorem Kept.subscriptions_lt (h : Kept o c latest rest) :
    ∀ i ∈ c.subscriptions, i < c.sockets.length := by
  have hlatest := h.id
  rw [h.sockets, List.length_cons]
  intro i hi
  cases ha : o.attaches with
  | false =>
    rw [h.unsubscribed ha] at hi
    exact absurd hi List.not_mem_nil
  | true =>
    obtain ⟨ids, hids, hlt⟩ := h.subscribed ha
    rw [hids] at hi
    rcases List.mem_cons.mp hi with rfl | hi
    · omega
    · have hlt' := hlt i hi
      omega

/-- The subscription that is left is that of the latest socket, while it is open. -/
theorem Kept.live (h : Kept o c latest rest) : c.subscriptions.filter c.isOpen =
    if o.attaches && !latest.closed then [latest.id] else [] := by
  have hopen (id : Nat) : c.isOpen id = (decide (latest.id = id) && !latest.closed) := by
    have hrest : rest.any (fun s => s.id = id && !s.closed) = false := by
      rw [List.any_eq_false]
      intro s hs
      rw [(h.closed s hs).1]
      simp
    unfold Conn.isOpen
    rw [h.sockets, List.any_cons, hrest, Bool.or_false]
  cases ha : o.attaches with
  | false =>
    rw [h.unsubscribed ha]
    rfl
  | true =>
    obtain ⟨ids, hids, hlt⟩ := h.subscribed ha
    have hnone : ids.filter c.isOpen = [] := by
      rw [List.filter_eq_nil_iff]
      intro id hid
      have hne : latest.id ≠ id := by
        have hlt' := hlt id hid
        omega
      rw [hopen, decide_eq_false hne, Bool.false_and]
      exact Bool.false_ne_true
    rw [hids, List.filter_cons, hnone, hopen, decide_eq_true rfl]

theorem Delivered.deliver {logs : Nat} {data : List (Nat × Nat)} (h : Delivered logs data)
    {ids : List Nat} (hone : ids.length ≤ 1) :
    Delivered (logs + 1) (ids.map (Prod.mk logs) ++ data) := by
  refine ⟨fun x hx => ?_, fun n => ?_⟩
  · rcases List.mem_append.mp hx with hx | hx
    · obtain ⟨id, _, rfl⟩ := List.mem_map.mp hx
      exact Nat.lt_succ_self logs
    · exact Nat.lt_succ_of_lt (h.past x hx)
  · rw [List.countP_append]
    by_cases hn : logs = n
    · have hold : data.countP (fun x => x.1 = n) = 0 := by
        rw [List.countP_eq_zero]
        intro x hx
        have hpast := h.past x hx
        rw [decide_eq_true_eq]
        omega
      have hnew := List.countP_le_length (p := fun x : Nat × Nat => x.1 = n)
        (l := ids.map (Prod.mk logs))
      rw [List.length_map] at hnew
      omega
    · have hnew : (ids.map (Prod.mk logs)).countP (fun x => x.1 = n) = 0 := by
        rw [List.countP_eq_zero]
        intro x hx
        obtain ⟨id, _, rfl⟩ := List.mem_map.mp hx
        rw [decide_eq_true_eq]
        exact hn
      have honce := h.once n
      omega

theorem kept_step {e : Event} (h : Kept o c latest rest) (hstep : c.step o e = some c') :
    ∃ latest' rest', Kept o c' latest' rest' := by
  cases e with
  | passes ms =>
    obtain rfl := Option.some.inj hstep
    refine ⟨latest, rest, h.sockets, h.id, h.closed, h.provider, h.token, h.subscribed,
      h.unsubscribed, h.first, ⟨h.opened.1, Nat.le_add_right_of_le h.opened.2⟩, ?_, h.delivered⟩
    have htimers := h.timers
    split at htimers
    · next hclosed =>
      obtain ⟨honclose, due, hdue, hafter, hbefore⟩ := htimers
      rw [if_pos hclosed]
      refine ⟨honclose, due, hdue, hafter, ?_⟩
      show due ≤ c.now + ms + o.reconnectTimeout
      omega
    · next hopen =>
      rw [if_neg hopen]
      exact htimers
  | closes id =>
    simp only [Conn.step] at hstep
    split at hstep
    · next socket hfind =>
      obtain ⟨rfl, rfl, hopen⟩ := h.find hfind
      have hsockets := h.close
      have htimers := h.timers
      rw [if_neg (by rw [hopen]; exact Bool.false_ne_true)] at htimers
      split at hstep
      · next honclose =>
        obtain rfl := Option.some.inj hstep
        obtain rfl := h.first honclose
        have hlost : Lost o (c.close socket.id) := by
          refine ⟨fun s hs => ?_, fun i hi => ?_, h.unsubscribed, ?_, htimers, h.delivered⟩
          · rw [hsockets] at hs ⊢
            obtain rfl := List.mem_singleton.mp hs
            have hid := h.id
            exact ⟨rfl, by rw [List.length_singleton]; exact Nat.lt_one_iff.mpr hid⟩
          · have hlt := h.subscriptions_lt i hi
            rw [h.sockets] at hlt
            rw [hsockets]
            exact hlt
          · rw [hsockets, List.length_singleton, Nat.sub_self, Nat.zero_mul]
            exact Nat.zero_le _
        exact ⟨_, _, kept_onWsClose hlost⟩
      · next honclose =>
        obtain rfl := Option.some.inj hstep
        refine ⟨{ socket with closed := true }, rest, hsockets, h.id, h.closed, h.provider, h.token,
          h.subscribed, h.unsubscribed, h.first, h.opened, ?_, h.delivered⟩
        refine ⟨honclose, c.now + o.reconnectTimeout, ?_, ?_, Nat.le_refl _⟩
        · show _ :: c.timers = _
          rw [htimers]
        · have hopened := h.opened.2
          show socket.opened + _ ≤ _
          omega
    · cases hstep
  | fires due =>
    simp only [Conn.step, Option.ite_none_right_eq_some, Option.some.injEq] at hstep
    obtain ⟨⟨hmem, hdue⟩, rfl⟩ := hstep
    have htimers := h.timers
    split at htimers
    · next hclosed =>
      obtain ⟨honclose, due', hdue', hafter, hbefore⟩ := htimers
      rw [hdue', List.mem_singleton] at hmem
      subst hmem
      have hopened := h.opened.1
      have hlost : Lost o { c with timers := c.timers.erase due } := by
        refine ⟨fun s hs => ?_, h.subscriptions_lt, h.unsubscribed, ?_, ?_, h.delivered⟩
        · show s.closed = true ∧ s.id < c.sockets.length
          rw [show _ = _ from h.sockets] at hs
          rw [h.sockets, List.length_cons]
          rcases List.mem_cons.mp hs with rfl | hs
          · have hid := h.id
            exact ⟨hclosed, by omega⟩
          · have hlt := h.closed s hs
            exact ⟨hlt.1, by omega⟩
        · show (c.sockets.length - 1) * _ ≤ c.now
          rw [h.sockets, List.length_cons, Nat.add_sub_cancel]
          cases hrest : rest.length with
          | zero =>
            rw [Nat.zero_mul]
            exact Nat.zero_le _
          | succ n =>
            rw [hrest, Nat.add_sub_cancel] at hopened
            rw [Nat.succ_mul]
            omega
        · show c.timers.erase due = []
          rw [hdue', List.erase_cons_head]
      exact ⟨_, _, kept_onWsClose hlost⟩
    · rw [htimers] at hmem
      exact absurd hmem List.not_mem_nil
  | log =>
    obtain rfl := Option.some.inj hstep
    refine ⟨latest, rest, h.sockets, h.id, h.closed, h.provider, h.token, h.subscribed,
      h.unsubscribed, h.first, h.opened, h.timers, h.delivered.deliver ?_⟩
    rw [h.live]
    split
    · exact Nat.le_refl 1
    · exact Nat.zero_le 1

theorem kept_run {es : List Event} (hrun : run (Conn.step o) (Conn.start o) es = some c) :
    ∃ latest rest, Kept o c latest rest :=
  Lib.Machine.run_invariant (P := fun c => ∃ latest rest, Kept o c latest rest)
    (fun _ _ _ h hstep => by
      obtain ⟨_, _, hkept⟩ := h
      exact kept_step hkept hstep)
    ⟨_, _, kept_start o⟩ hrun

theorem Kept.open (h : Kept o c latest rest) (hopen : latest.closed = false) :
    c.Open o latest := by
  have htimers := h.timers
  rw [if_neg (by rw [hopen]; exact Bool.false_ne_true)] at htimers
  refine ⟨?_, h.provider, h.token, fun ha => ?_, htimers⟩
  · have hrest : rest.filter (fun s => !s.closed) = [] := by
      rw [List.filter_eq_nil_iff]
      intro s hs
      rw [(h.closed s hs).1]
      exact Bool.false_ne_true
    rw [h.sockets, List.filter_cons, hrest, hopen]
    rfl
  · rw [h.live, ha, hopen]
    rfl

theorem Kept.waiting (h : Kept o c latest rest) (hclosed : latest.closed = true) :
    ∃ due, c.Waiting o due := by
  have htimers := h.timers
  rw [if_pos hclosed] at htimers
  obtain ⟨_, due, hdue, _, hbefore⟩ := htimers
  refine ⟨due, fun s hs => ?_, hdue, hbefore⟩
  rw [h.sockets] at hs
  rcases List.mem_cons.mp hs with rfl | hs
  · exact hclosed
  · exact (h.closed s hs).1

/-- The socket `onWsClose` opens is open. -/
theorem Kept.reopened (h : Kept o (c.onWsClose o) latest rest) : latest.closed = false := by
  have hsockets := h.sockets
  rw [onWsClose_eq] at hsockets
  rw [← (List.cons.inj hsockets).1]
  rfl

end Invariant

/-- In every run, however often sockets close and however late timers fire: one socket is open and
the provider, the contract and the only live subscription are on it, or none is and exactly one
timer is set, which brings this about when it fires. -/
theorem one_connection (o : Owner) (es : List Event) (c : Conn)
    (hrun : run (Conn.step o) (Conn.start o) es = some c) :
    (∃ socket, c.Open o socket) ∨ ∃ due, c.Waiting o due ∧
      ∃ c', run (Conn.step o) c [.passes o.reconnectTimeout, .fires due] = some c' ∧
        ∃ socket, c'.Open o socket := by
  obtain ⟨latest, rest, h⟩ := kept_run hrun
  cases hclosed : latest.closed with
  | false => exact Or.inl ⟨latest, h.open hclosed⟩
  | true =>
    right
    obtain ⟨due, hwaiting⟩ := h.waiting hclosed
    let later : Conn := { c with now := c.now + o.reconnectTimeout }
    have hfires : later.step o (.fires due) =
        some (({ later with timers := later.timers.erase due } : Conn).onWsClose o) := by
      have hmem : due ∈ later.timers := by
        show due ∈ c.timers
        rw [hwaiting.timers]
        exact List.mem_cons_self
      exact if_pos ⟨hmem, hwaiting.due⟩
    have hrun' : run (Conn.step o) c [.passes o.reconnectTimeout, .fires due] = _ :=
      Lib.Machine.run_cons_eq_some.mpr ⟨later, rfl,
        Lib.Machine.run_cons_eq_some.mpr ⟨_, hfires, rfl⟩⟩
    refine ⟨due, hwaiting, _, hrun', ?_⟩
    obtain ⟨latest', rest', h'⟩ := kept_run (Lib.Machine.run_append_eq_some.mpr ⟨c, hrun, hrun'⟩)
    exact ⟨latest', h'.open h'.reopened⟩

/-- In every run, after any time and from any number of closed sockets: all but two of the sockets
were opened `reconnectTimeout` after the one before. -/
theorem reconnects_spaced (o : Owner) (es : List Event) (c : Conn)
    (hrun : run (Conn.step o) (Conn.start o) es = some c) :
    (c.sockets.length - 2) * o.reconnectTimeout ≤ c.now := by
  obtain ⟨latest, rest, h⟩ := kept_run hrun
  obtain ⟨hspaced, hnow⟩ := h.opened
  rw [h.sockets, List.length_cons]
  have hlength : rest.length + 1 - 2 = rest.length - 1 := by omega
  rw [hlength]
  omega

section Samples

/-- The handler with the `reconnectTimeout` of `config.ts`. -/
def sampleOwner : Owner := web3Handler 5000

/-- The first socket is replaced at once, the second after its timer; logs come at all times. -/
def sampleReconnects : List Event :=
  [.log, .closes 0, .log, .passes 10, .closes 1, .log, .passes 6000, .fires 5010, .log]

theorem sampleReconnects_run : ∃ c,
    run (Conn.step sampleOwner) (Conn.start sampleOwner) sampleReconnects = some c ∧
      c.data = [(3, 2), (1, 1), (0, 0)] ∧ c.timers = [] ∧ c.sockets.length = 3 ∧ c.now = 6010 := by
  have h : (run (Conn.step sampleOwner) (Conn.start sampleOwner) sampleReconnects).any (fun c =>
      c.data = [(3, 2), (1, 1), (0, 0)] ∧ c.timers = [] ∧ c.sockets.length = 3 ∧
        c.now = 6010) = true := by
    decide +kernel
  obtain ⟨c, hc, hp⟩ := (Option.any_eq_true _ _).mp h
  exact ⟨c, hc, of_decide_eq_true hp⟩

theorem one_connection_reconnected : ∃ c,
    run (Conn.step sampleOwner) (Conn.start sampleOwner) sampleReconnects = some c ∧
      ∃ socket, c.Open sampleOwner socket := by
  obtain ⟨c, hc, _, htimers, _⟩ := sampleReconnects_run
  refine ⟨c, hc, ?_⟩
  rcases one_connection sampleOwner sampleReconnects c hc with hopen | ⟨due, hwaiting, _⟩
  · exact hopen
  · have hset := hwaiting.timers
    rw [htimers] at hset
    cases hset

theorem reconnects_spaced_reconnected : ∃ c,
    run (Conn.step sampleOwner) (Conn.start sampleOwner) sampleReconnects = some c ∧
      c.now = 6010 ∧ (3 - 2) * 5000 ≤ c.now := by
  obtain ⟨c, hc, _, _, hlength, hnow⟩ := sampleReconnects_run
  have hspaced := reconnects_spaced sampleOwner sampleReconnects c hc
  rw [hlength] at hspaced
  exact ⟨c, hc, hnow, hspaced⟩

end Samples

end OlsDapp.Handler.Connection
