import Cotamer.Mutex
import Cotamer.Transition

/-! A client-mode `http_parser` used by one coroutine, one exchange after the
other: a request is sent, then its response is received. Nobody else has the
parser, and the peer answers each request it gets, in order. -/
namespace Cotamer.Http
open Event Mutex Transition

/-- One exchange. `send` drops the ticket for the response; the caller of
`send_request` passes it to `receive` or ignores it. -/
inductive Exchange (Req : Type) where
  | send (m : Req)
  | sendRequest (m : Req) (passed : Bool)
  deriving DecidableEq, Repr

namespace Exchange
variable {Req : Type}

def request : Exchange Req → Req
  | send m => m
  | sendRequest m _ => m

/-- The response is received with `receive(std::move(ticket))`. -/
def passed : Exchange Req → Bool
  | send _ => false
  | sendRequest _ passed => passed

end Exchange

/-- `mutex_event<false>`, without the mutex it is for. -/
abbrev Ticket := Handle

/-- What the coroutine does next, with the locals that are alive. -/
inductive Control (Req : Type) where
  | idle
  | locking (e : Exchange Req) (guard : Ticket)       -- co_await m_[1].lock()
  | sending (e : Exchange Req) (ticket : Ticket)      -- co_await sendv_all
  | claiming (e : Exchange Req) (ticket : Ticket)     -- co_await ticket
  | reading (e : Exchange Req)                        -- the loop of receive
  deriving DecidableEq, Repr

structure Client (Req Resp : Type) where
  script : List (Exchange Req) := []
  control : Control Req := .idle
  read : Mutex := {}                                  -- m_[0]
  write : Mutex := {}                                 -- m_[1]
  next : EventId := 0
  fired : List EventId := []                          -- mutex events that were triggered
  outgoing : List Req := []                           -- requests the peer has not answered
  incoming : List Resp := []                          -- responses not read yet
  answered : List (Req × Resp) := []                  -- what receive returned, with the request
  deriving DecidableEq, Repr

inductive Move where
  | client
  | peer
  deriving DecidableEq, Repr

namespace Client
variable {Req Resp : Type}

/-- `mutex_event::triggered` -/
def triggered (s : Client Req Resp) : Ticket → Bool
  | none => true
  | some event => s.fired.contains event

/-- `lock` makes an event only for a request that has to wait. -/
def ticketOf (s : Client Req Resp) (r : Result) : Ticket := if r.now then none else some s.next

def afterLock (s : Client Req Resp) (r : Result) : Client Req Resp :=
  { s with next := s.next + 1, fired := s.fired ++ r.granted.map Waiter.event }

/-- The coroutine suspends on a ticket that is not triggered. -/
def suspendOn (s : Client Req Resp) : Ticket → Client Req Resp
  | none => s
  | some event => { s with read := s.read.updateWaiter event fun b =>
      { b with listeners := b.listeners ++ [.coroutine 0] } }

/-- `~mutex_event` releases the event; it does not unlock the mutex. -/
def drop (s : Client Req Resp) : Ticket → Client Req Resp
  | none => s
  | some event => { s with read := s.read.updateWaiter event fun b =>
      { b with refcount := b.refcount - 1 } }

/-- `send_request` up to the lock for writing. -/
def beginSend (s : Client Req Resp) (e : Exchange Req) : Client Req Resp :=
  let r := lockImpl false s.next none s.write
  { s.afterLock r with write := r.mutex, control := .locking e (s.ticketOf r) }

/-- With the lock for writing held, `send_request` obtains the read ticket. -/
def obtainTicket (s : Client Req Resp) (e : Exchange Req) : Client Req Resp :=
  let r := lockImpl false s.next none s.read
  { s.afterLock r with read := r.mutex, control := .sending e (s.ticketOf r) }

/-- `receive(ticket)` up to its `co_await ticket`. -/
def receiveWith (s : Client Req Resp) (e : Exchange Req) (ticket : Ticket) : Client Req Resp :=
  { s.suspendOn ticket with control := .claiming e ticket }

/-- `receive()` locks `m_[0]` anew. -/
def receive (s : Client Req Resp) (e : Exchange Req) : Client Req Resp :=
  let r := lockImpl false s.next none s.read
  receiveWith { s.afterLock r with read := r.mutex } e (s.ticketOf r)

/-- The end of `send_request`, where its guard unlocks `m_[1]`, and the call of
`receive` that follows. -/
def endSend (s : Client Req Resp) (e : Exchange Req) (ticket : Ticket) : Client Req Resp :=
  let r := s.write.unlock s.write.latch
  let s := { s with
    write := r.mutex, fired := s.fired ++ r.granted.map Waiter.event,
    outgoing := s.outgoing ++ [e.request] }
  if e.passed then s.receiveWith e ticket else (s.drop ticket).receive e

/-- `receive` returns a response, and its guard unlocks `m_[0]`. -/
def endReceive (s : Client Req Resp) (e : Exchange Req) (resp : Resp) (rest : List Resp) :
    Client Req Resp :=
  let r := s.read.unlock s.read.latch
  { s with
    read := r.mutex, fired := s.fired ++ r.granted.map Waiter.event,
    incoming := rest, answered := s.answered ++ [(e.request, resp)], control := .idle }

/-- The coroutine runs to its next suspension point, or the peer answers. -/
def step (answer : Req → Resp) (s : Client Req Resp) : Move → Option (Client Req Resp)
  | .peer =>
    match s.outgoing with
    | [] => none
    | m :: rest => some { s with outgoing := rest, incoming := s.incoming ++ [answer m] }
  | .client =>
    match s.control with
    | .idle =>
      match s.script with
      | [] => none
      | e :: rest => some ({ s with script := rest }.beginSend e)
    | .locking e guard => if s.triggered guard then some (s.obtainTicket e) else none
    | .sending e ticket => some (s.endSend e ticket)
    | .claiming e ticket => if s.triggered ticket then some { s with control := .reading e } else none
    | .reading e =>
      match s.incoming with
      | [] => none
      | resp :: rest => some (s.endReceive e resp rest)

/-- The coroutine waits on `m_[0]`. -/
def Waits (s : Client Req Resp) : Prop :=
  match s.control with
  | .claiming _ ticket => s.triggered ticket = false
  | _ => False

/-- Some live ticket or guard has `m_[0]`, and its owner may unlock it. -/
def Owned (s : Client Req Resp) : Prop :=
  match s.control with
  | .sending _ ticket | .claiming _ ticket => s.triggered ticket = true
  | .reading _ => True
  | _ => False

instance (s : Client Req Resp) : Decidable s.Waits := by
  unfold Waits
  split <;> infer_instance

instance (s : Client Req Resp) : Decidable s.Owned := by
  unfold Owned
  split <;> infer_instance

def start (es : List (Exchange Req)) : Client Req Resp := { script := es }

end Client

/-- Every run of the exchanges answers each request with its own response, never
waits on `m_[0]` with nobody left to unlock it, and goes on until all exchanges
are done. -/
structure Served {Req Resp : Type} (answer : Req → Resp) (es : List (Exchange Req)) : Prop where
  responses : ∀ ls s, Reaches (Client.step answer) (Client.start es) ls s →
    s.answered = (es.take s.answered.length).map fun e => (e.request, answer e.request)
  unlockable : ∀ ls s, Reaches (Client.step answer) (Client.start es) ls s → s.Waits → s.Owned
  moves : ∀ ls s, Reaches (Client.step answer) (Client.start es) ls s →
    s.answered.length < es.length → ∃ l, (Client.step answer s l).isSome = true
  ends : ∀ ls s, Reaches (Client.step answer) (Client.start es) ls s → ls.length ≤ 6 * es.length

namespace Client
variable {Req Resp : Type} {answer : Req → Resp} {s t u : Client Req Resp} {l : Move} {ls : List Move}
  {e : Exchange Req} {es rest : List (Exchange Req)} {n : EventId}

/-- A mutex with one exclusive owner and no queue. -/
def held : Mutex := ⟨mfLockExcl, []⟩

theorem lock_free (event : EventId) : lockImpl false event none {} = ⟨held, true, []⟩ := rfl

theorem lock_held (event : EventId) : lockImpl false event none held =
    ⟨⟨mfLockExcl + mfNextExcl, [newWaiter false event none]⟩, false, []⟩ := rfl

theorem unlock_held : held.unlock held.latch = ⟨{}, false, []⟩ := rfl

theorem beginSend_free (free : s.write = {}) : s.beginSend e =
    { s with next := s.next + 1, write := held, control := .locking e none } := by
  simp only [beginSend, free, lock_free, afterLock, ticketOf, List.map_nil, List.append_nil, if_true]

theorem obtainTicket_free (free : s.read = {}) : s.obtainTicket e =
    { s with next := s.next + 1, read := held, control := .sending e none } := by
  simp only [obtainTicket, free, lock_free, afterLock, ticketOf, List.map_nil, List.append_nil, if_true]

theorem endSend_passed (locked : s.write = held) (passed : e.passed = true) : s.endSend e none =
    { s with write := {}, outgoing := s.outgoing ++ [e.request], control := .claiming e none } := by
  simp only [endSend, locked, unlock_held, passed, receiveWith, suspendOn, List.map_nil,
    List.append_nil, if_true]

theorem endReceive_held (locked : s.read = held) (resp : Resp) (left : List Resp) :
    s.endReceive e resp left = { s with
      read := {}, incoming := left, answered := s.answered ++ [(e.request, resp)],
      control := .idle } := by
  simp only [endReceive, locked, unlock_held, List.map_nil, List.append_nil]

/-- Between two exchanges nothing is locked and nothing is on its way. -/
def Quiet (s : Client Req Resp) : Prop :=
  s.read = {} ∧ s.write = {} ∧ s.outgoing = [] ∧ s.incoming = []

/-- The request is on its way to the peer, or its response on the way back. -/
def Pending (answer : Req → Resp) (m : Req) (s : Client Req Resp) : Prop :=
  (s.outgoing = [m] ∧ s.incoming = []) ∨ (s.outgoing = [] ∧ s.incoming = [answer m])

/-- The current exchange, when its ticket is passed on. `current` is what
remains of the script with it. -/
def Phase (answer : Req → Resp) (s : Client Req Resp) : List (Exchange Req) → Prop :=
  fun current => match s.control with
  | .idle => current = s.script ∧ s.Quiet
  | .locking e guard => current = e :: s.script ∧ guard = none ∧ s.read = {} ∧ s.write = held ∧
      s.outgoing = [] ∧ s.incoming = []
  | .sending e ticket => current = e :: s.script ∧ ticket = none ∧ s.read = held ∧ s.write = held ∧
      s.outgoing = [] ∧ s.incoming = []
  | .claiming e ticket => current = e :: s.script ∧ ticket = none ∧ s.read = held ∧ s.write = {} ∧
      s.Pending answer e.request
  | .reading e => current = e :: s.script ∧ s.read = held ∧ s.write = {} ∧
      s.Pending answer e.request

/-- The exchanges done so far were answered, and the current one is under way. -/
structure Going (answer : Req → Resp) (es : List (Exchange Req)) (s : Client Req Resp) : Prop where
  responses : s.answered = (es.take s.answered.length).map fun e => (e.request, answer e.request)
  phase : s.Phase answer (es.drop s.answered.length)

/-- Steps of the current exchange that were taken. -/
def taken (s : Client Req Resp) : Nat :=
  match s.control with
  | .idle => 0
  | .locking _ _ => 1
  | .sending _ _ => 2
  | .claiming _ _ => 3 + s.incoming.length
  | .reading _ => 4 + s.incoming.length

def progress (s : Client Req Resp) : Nat := 6 * s.answered.length + s.taken

theorem start_going (es : List (Exchange Req)) : (start es : Client Req Resp).Going answer es :=
  ⟨rfl, rfl, rfl, rfl, rfl, rfl⟩

/-- A response ends the current exchange. -/
theorem responses_end {answered : List (Req × Resp)}
    (responses : answered = (es.take answered.length).map fun e => (e.request, answer e.request))
    (current : es.drop answered.length = e :: rest) :
    answered ++ [(e.request, answer e.request)] =
        (es.take (answered.length + 1)).map (fun e => (e.request, answer e.request)) ∧
      es.drop (answered.length + 1) = rest := by
  have here : es[answered.length]? = some e := by
    rw [← List.head?_drop, current]
    rfl
  constructor
  · rw [List.take_add_one, here, List.map_append, ← responses]
    rfl
  · rw [← List.tail_drop, current]
    rfl

theorem peer_phase (phase : s.Phase answer rest) (moved : step answer s .peer = some t) :
    t.Phase answer rest ∧ t.taken = s.taken + 1 ∧ t.answered = s.answered := by
  obtain ⟨script, control, read, write, next, fired, outgoing, incoming, answered⟩ := s
  cases outgoing with
  | nil => contradiction
  | cons m others =>
      cases Option.some.inj moved
      refine ⟨?_, ?_, rfl⟩
      · cases control <;> simp_all [Phase, Quiet, Pending]
      · cases control <;> simp_all [Phase, Quiet, Pending, taken]

theorem client_going (going : s.Going answer es) (passed : ∀ e ∈ es, e.passed = true)
    (moved : step answer s .client = some t) :
    t.Going answer es ∧ t.progress = s.progress + 1 := by
  obtain ⟨responses, phase⟩ := going
  obtain ⟨script, control, read, write, next, fired, outgoing, incoming, answered⟩ := s
  cases control with
  | idle =>
      obtain ⟨current, rfl, rfl, rfl, rfl⟩ := phase
      cases script with
      | nil => contradiction
      | cons e rest =>
          cases Option.some.inj moved
          rw [beginSend_free rfl]
          exact ⟨⟨responses, current, rfl, rfl, rfl, rfl, rfl⟩, rfl⟩
  | locking e guard =>
      obtain ⟨current, rfl, rfl, rfl, rfl, rfl⟩ := phase
      cases Option.some.inj moved
      rw [obtainTicket_free rfl]
      exact ⟨⟨responses, current, rfl, rfl, rfl, rfl, rfl⟩, rfl⟩
  | sending e ticket =>
      obtain ⟨current, rfl, rfl, rfl, rfl, rfl⟩ := phase
      have member : e ∈ es := List.mem_of_mem_drop (current ▸ List.mem_cons_self)
      cases Option.some.inj moved
      rw [endSend_passed rfl (passed e member)]
      exact ⟨⟨responses, current, rfl, rfl, rfl, .inl ⟨rfl, rfl⟩⟩, rfl⟩
  | claiming e ticket =>
      obtain ⟨current, rfl, rfl, rfl, pending⟩ := phase
      cases Option.some.inj moved
      refine ⟨⟨responses, current, rfl, rfl, pending⟩, ?_⟩
      simp only [progress, taken]
      omega
  | reading e =>
      obtain ⟨current, rfl, rfl, ⟨rfl, rfl⟩ | ⟨rfl, rfl⟩⟩ := phase
      · contradiction
      · cases Option.some.inj moved
        obtain ⟨responses', current'⟩ := responses_end responses current
        rw [endReceive_held rfl]
        refine ⟨⟨?_, ?_⟩, ?_⟩
        · simpa only [List.length_append, List.length_singleton] using responses'
        · simp only [List.length_append, List.length_singleton]
          exact ⟨current', rfl, rfl, rfl, rfl⟩
        · simp only [progress, taken, List.length_append, List.length_singleton]
          omega

theorem step_going (going : s.Going answer es) (passed : ∀ e ∈ es, e.passed = true)
    (moved : step answer s l = some t) : t.Going answer es ∧ t.progress = s.progress + 1 := by
  cases l with
  | peer =>
      obtain ⟨phase, taken, same⟩ := peer_phase going.phase moved
      refine ⟨⟨?_, ?_⟩, ?_⟩
      · rw [same]
        exact going.responses
      · rw [same]
        exact phase
      · rw [progress, same, taken, progress, Nat.add_assoc]
  | client => exact client_going going passed moved

theorem reaches_going (passed : ∀ e ∈ es, e.passed = true) (path : Reaches (step answer) s ls t)
    (going : s.Going answer es) : t.Going answer es ∧ t.progress = s.progress + ls.length := by
  induction path with
  | refl => exact ⟨going, rfl⟩
  | next moved _ ih =>
      obtain ⟨going', step⟩ := step_going going passed moved
      obtain ⟨going'', steps⟩ := ih going'
      refine ⟨going'', ?_⟩
      rw [steps, step, List.length_cons]
      omega

theorem Going.owned (going : s.Going answer es) (waits : s.Waits) : s.Owned := by
  have phase := going.phase
  obtain ⟨script, control, read, write, next, fired, outgoing, incoming, answered⟩ := s
  cases control with
  | claiming e ticket =>
      obtain ⟨_, rfl, _⟩ := phase
      exact absurd waits (by simp [Waits, triggered])
  | idle | locking | sending | reading => exact absurd waits not_false

theorem Going.moves (going : s.Going answer es) (left : s.answered.length < es.length) :
    ∃ l, (step answer s l).isSome = true := by
  have phase := going.phase
  have more : es.drop s.answered.length ≠ [] := by simp [left]
  obtain ⟨script, control, read, write, next, fired, outgoing, incoming, answered⟩ := s
  cases control with
  | idle =>
      obtain ⟨current, _⟩ := phase
      cases script with
      | nil => exact absurd current more
      | cons e rest => exact ⟨.client, rfl⟩
  | locking e guard =>
      obtain ⟨_, rfl, _⟩ := phase
      exact ⟨.client, rfl⟩
  | sending e ticket => exact ⟨.client, rfl⟩
  | claiming e ticket =>
      obtain ⟨_, rfl, _⟩ := phase
      exact ⟨.client, rfl⟩
  | reading e =>
      obtain ⟨_, _, _, ⟨rfl, rfl⟩ | ⟨rfl, rfl⟩⟩ := phase
      · exact ⟨.peer, rfl⟩
      · exact ⟨.client, rfl⟩

theorem Going.progress_le (going : s.Going answer es) : s.progress ≤ 6 * es.length := by
  have phase := going.phase
  have count : s.answered.length ≤ es.length := by
    have length := congrArg List.length going.responses
    rw [List.length_map, List.length_take] at length
    omega
  have early : s.taken ≤ 5 ∧ (s.taken ≠ 0 → es.drop s.answered.length ≠ []) := by
    obtain ⟨script, control, read, write, next, fired, outgoing, incoming, answered⟩ := s
    cases control with
    | idle => exact ⟨by simp [taken], fun some => absurd rfl some⟩
    | locking | sending => exact ⟨by simp [taken], fun _ => by simp [phase.1]⟩
    | claiming e ticket =>
        obtain ⟨current, _, _, _, ⟨_, rfl⟩ | ⟨_, rfl⟩⟩ := phase <;>
          exact ⟨by simp [taken], fun _ => by simp [current]⟩
    | reading e =>
        obtain ⟨current, _, _, ⟨_, rfl⟩ | ⟨_, rfl⟩⟩ := phase <;>
          exact ⟨by simp [taken], fun _ => by simp [current]⟩
  rw [progress]
  by_cases all : s.answered.length = es.length
  · have none : s.taken = 0 := by
      by_contra some
      exact early.2 some (by simp [all])
    omega
  · omega

/-- Passing the ticket on, the client is served. -/
theorem served_passed (passed : ∀ e ∈ es, e.passed = true) : Served answer es where
  responses _ _ path := (reaches_going passed path (start_going es)).1.responses
  unlockable _ _ path := (reaches_going passed path (start_going es)).1.owned
  moves _ _ path := (reaches_going passed path (start_going es)).1.moves
  ends ls s path := by
    obtain ⟨going, steps⟩ := reaches_going passed path (start_going es)
    have none : progress (start es : Client Req Resp) = 0 := rfl
    have bound := going.progress_le
    omega

/-! An ignored ticket has `m_[0]`, and nobody unlocks it. -/

/-- What `receive()` finds after the ticket was dropped. -/
theorem endSend_ignored (idle : s.read = held) (locked : s.write = held) (ignored : e.passed = false) :
    ∃ m, s.endSend e none = { s with
      next := s.next + 1, write := {}, outgoing := s.outgoing ++ [e.request], read := m,
      control := .claiming e (some s.next) } := by
  simp only [endSend, locked, unlock_held, ignored, drop, receive, idle, lock_held, receiveWith,
    suspendOn, ticketOf, afterLock, List.map_nil, List.append_nil, if_false, Bool.false_eq_true]
  exact ⟨_, rfl⟩

/-- The first exchange ignores its ticket. -/
structure Starving (s : Client Req Resp) : Prop where
  answered : s.answered = []
  fired : s.fired = []
  stage : match s.control with
    | .idle => (∃ e rest, s.script = e :: rest ∧ e.passed = false) ∧ s.read = {} ∧ s.write = {}
    | .locking e guard => e.passed = false ∧ guard = none ∧ s.read = {} ∧ s.write = held
    | .sending e ticket => e.passed = false ∧ ticket = none ∧ s.read = held ∧ s.write = held
    | .claiming _ ticket => ticket ≠ none
    | .reading _ => False

theorem step_starving (starving : s.Starving) (moved : step answer s l = some t) : t.Starving := by
  obtain ⟨script, control, read, write, next, fired, outgoing, incoming, answered⟩ := s
  obtain ⟨rfl, rfl, stage⟩ := starving
  cases l with
  | peer =>
      cases outgoing with
      | nil => contradiction
      | cons m others =>
          cases Option.some.inj moved
          exact ⟨rfl, rfl, stage⟩
  | client =>
      cases control with
      | idle =>
          obtain ⟨⟨e, rest, rfl, ignored⟩, rfl, rfl⟩ := stage
          cases Option.some.inj moved
          rw [beginSend_free rfl]
          exact ⟨rfl, rfl, ignored, rfl, rfl, rfl⟩
      | locking e guard =>
          obtain ⟨ignored, rfl, rfl, rfl⟩ := stage
          cases Option.some.inj moved
          rw [obtainTicket_free rfl]
          exact ⟨rfl, rfl, ignored, rfl, rfl, rfl⟩
      | sending e ticket =>
          obtain ⟨ignored, rfl, rfl, rfl⟩ := stage
          let busy : Client Req Resp :=
            ⟨script, .sending e none, held, held, next, [], outgoing, incoming, []⟩
          have ended : ∃ m, busy.endSend e none = _ := endSend_ignored rfl rfl ignored
          obtain ⟨m, ended⟩ := ended
          cases Option.some.inj moved
          rw [ended]
          exact ⟨rfl, rfl, Option.some_ne_none _⟩
      | claiming e ticket =>
          cases ticket with
          | none => exact absurd rfl stage
          | some event => contradiction
      | reading e => exact absurd stage not_false

theorem start_starving (ignored : e.passed = false) :
    (start (e :: rest) : Client Req Resp).Starving :=
  ⟨rfl, rfl, ⟨e, rest, rfl, ignored⟩, rfl, rfl⟩

/-- The client with nothing under way. -/
def between (es : List (Exchange Req)) (n : EventId) (answered : List (Req × Resp)) :
    Client Req Resp :=
  { script := es, next := n, answered := answered }

theorem exchange_run (passed : e.passed = true) (n : EventId) (answered : List (Req × Resp)) :
    Reaches (step answer) (between (e :: rest) n answered)
      [.client, .client, .client, .peer, .client, .client]
      (between rest (n + 2) (answered ++ [(e.request, answer e.request)])) := by
  refine .next (congrArg some (beginSend_free rfl)) ?_
  refine .next (congrArg some (obtainTicket_free rfl)) ?_
  refine .next (congrArg some (endSend_passed rfl passed)) ?_
  refine .next rfl (.next rfl ?_)
  refine .next (congrArg some (endReceive_held rfl _ _)) ?_
  exact .refl _

theorem front_run (front : List (Exchange Req)) (passed : ∀ e ∈ front, e.passed = true)
    (n : EventId) (answered : List (Req × Resp)) :
    ∃ ls n' answered', Reaches (step answer) (between (front ++ rest) n answered) ls
      (between rest n' answered') := by
  induction front generalizing n answered with
  | nil => exact ⟨[], n, answered, .refl _⟩
  | cons e front ih =>
      obtain ⟨here, later⟩ := List.forall_mem_cons.mp passed
      have first : Reaches (step answer) (between (e :: (front ++ rest)) n answered) _ _ :=
        exchange_run here n answered
      obtain ⟨ls, n', answered', path⟩ := ih later (n + 2) (answered ++ [(e.request, answer e.request)])
      exact ⟨_, n', answered', first.trans path⟩

/-- The exchange that ignores its ticket waits on the mutex it has itself. -/
theorem ignored_run (answer : Req → Resp) (ignored : e.passed = false) (n : EventId)
    (answered : List (Req × Resp)) :
    ∃ ls s, Reaches (step answer) (between (e :: rest) n answered) ls s ∧ s.Waits ∧ ¬s.Owned := by
  let busy : Client Req Resp :=
    { between rest (n + 2) answered with read := held, write := held, control := .sending e none }
  have ended : ∃ m, busy.endSend e none = _ := endSend_ignored rfl rfl ignored
  obtain ⟨m, ended⟩ := ended
  refine ⟨[.client, .client, .client], busy.endSend e none, ?_, ?_, ?_⟩
  · refine .next (congrArg some (beginSend_free rfl)) ?_
    refine .next (congrArg some (obtainTicket_free rfl)) ?_
    exact .next rfl (.refl _)
  · rw [ended]
    exact rfl
  · rw [ended]
    exact Bool.false_ne_true

theorem first_ignored (some : ¬∀ e ∈ es, e.passed = true) :
    ∃ front e rest, es = front ++ e :: rest ∧ (∀ e ∈ front, e.passed = true) ∧ e.passed = false := by
  cases found : es.find? fun e => !e.passed with
  | none =>
      rw [List.find?_eq_none] at found
      exact absurd (fun e member => by simpa using found e member) some
  | some e =>
      obtain ⟨ignored, front, rest, split, passed⟩ := List.find?_eq_some_iff_append.mp found
      refine ⟨front, e, rest, split, fun e member => ?_, by simpa using ignored⟩
      simpa using passed e member

/-- The client is served exactly when no exchange ignores its ticket. -/
theorem served_iff (answer : Req → Resp) (es : List (Exchange Req)) :
    Served answer es ↔ ∀ e ∈ es, e.passed = true := by
  refine ⟨fun served => ?_, served_passed⟩
  by_contra some
  obtain ⟨front, e, rest, rfl, passed, ignored⟩ := first_ignored some
  obtain ⟨ls, n, answered, path⟩ := @front_run _ _ answer (e :: rest) front passed 0 []
  obtain ⟨ms, s, later, waits, free⟩ := ignored_run answer ignored n answered
  exact free (served.unlockable _ _ (path.trans later) waits)

theorem ignored_starved (ignored : ∀ e ∈ es, e.passed = false)
    (path : Reaches (step answer) (start es) ls s) : s.answered = [] := by
  cases es with
  | nil =>
      have going : (start [] : Client Req Resp).Going answer [] := start_going []
      have passed : ∀ e ∈ ([] : List (Exchange Req)), e.passed = true := by simp
      have responses := (reaches_going passed path going).1.responses
      simpa using responses
  | cons e rest =>
      have first : (start (e :: rest) : Client Req Resp).Starving :=
        start_starving (ignored e List.mem_cons_self)
      exact (path.invariant step_starving first).answered

/-- The client is served exactly when every exchange passes its ticket to `receive`. One that
ignores all its tickets is served only when it sends nothing, and no response is returned
to it in any run. -/
theorem tickets_ignored (answer : Req → Resp) (es : List (Exchange Req)) :
    (Served answer es ↔ ∀ e ∈ es, e.passed = true) ∧
    ((∀ e ∈ es, e.passed = false) → (Served answer es ↔ es = []) ∧
      ∀ ls s, Reaches (step answer) (start es) ls s → s.answered = []) := by
  refine ⟨served_iff answer es, fun ignored => ⟨?_, fun _ _ => ignored_starved ignored⟩⟩
  rw [served_iff, List.eq_nil_iff_forall_not_mem]
  refine forall_congr' fun e => ⟨fun passed member => ?_, fun absent member => absurd member absent⟩
  rw [ignored e member] at passed
  exact Bool.false_ne_true (passed member)

/-- The coroutine of one exchange waits for itself. -/
theorem one_exchange_waits :
    ¬Served (fun m : Nat => m) [.send 0] := by
  intro served
  have ignored : (Exchange.send 0).passed = false := rfl
  obtain ⟨ls, s, path, waits, free⟩ := @ignored_run _ _ _ [] (fun m : Nat => m) ignored 0 []
  exact free (served.unlockable _ _ path waits)

end Client
end Cotamer.Http
