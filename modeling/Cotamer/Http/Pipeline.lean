import Cotamer.Http.Receive
import Cotamer.Mutex.Line
import Mathlib.Logic.Function.Basic

/-! Pipelining. Any number of coroutines share a client-mode `http_parser`; each
sends a request and receives with the ticket it got, again and again. -/
namespace Cotamer.Http.Pipeline
open Chunked Event Mutex Transition

/-- `update_iovec`: the buffers left when `r` bytes are gone. -/
def updateIovec : List Bytes → Nat → List Bytes
  | [], _ => []
  | iov :: rest, r => if iov.length ≤ r then updateIovec rest (r - iov.length) else iov.drop r :: rest

def msghdrDone : List Bytes → Nat → Bool
  | [], _ => true
  | iov :: rest, r => if iov.length ≤ r then msghdrDone rest (r - iov.length) else false

/-- The buffers `send_request` gives to `sendv_all`. `methodName` is `llhttp_method_name`. -/
def requestIov (methodName : UInt8 → Bytes) (host : Bytes) (m : Message) : List Bytes :=
  let urlline := methodName m.method ++ ascii " " ++ m.url ++ ascii " HTTP/" ++ decimal m.major.toNat ++
    ascii "." ++ decimal m.minor.toNat ++ [cr, lf]
  let m := if host ≠ [] ∧ !m.hasHeader (ascii "host") then m.addHeader (ascii "Host") host else m
  let m := if m.hasBody && !m.hasHeader (ascii "content-length") &&
      !m.hasHeader (ascii "transfer-encoding")
    then m.addHeader (ascii "Content-Length") (decimal m.body.length) else m
  urlline :: (m.headers ++ [cr, lf]) :: if m.body = [] then [] else [m.body]

/-- What a coroutine does next, with the locals that are alive. -/
inductive Control where
  | idle
  | locking (iov : List Bytes) (guard : Handle)       -- co_await m_[1].lock()
  | writing (iov : List Bytes) (ticket : Handle)      -- the loop of sendmsg
  | sent (ticket : Handle)                            -- send_request has returned
  | claiming (ticket : Handle)                        -- co_await ticket
  | reading                                           -- the loop of receive
  deriving DecidableEq, Repr

/-- The parser and the coroutines that share it. `senders` records who is in
`send_request`, in the order of the calls; `requests` the tickets as they were
taken, with the bytes of their requests; `responses` what `receive` returned or threw. -/
structure State (σ : Type) where
  control : CoroutineId → Control := fun _ => .idle
  connection : Connection σ
  data : CoroutineId := 0                             -- hp_.data points to the md of this one
  md : CoroutineId → MessageData := fun _ => {}
  read : Lock := {}                                   -- m_[0]
  write : Lock := {}                                  -- m_[1]
  wire : Bytes := []
  senders : List CoroutineId := []
  requests : List (CoroutineId × Bytes) := []
  responses : List (CoroutineId × Except Thrown Message) := []

inductive Label where
  | sendRequest (i : CoroutineId) (m : Message)
  | locked (i : CoroutineId)
  | sendmsg (i : CoroutineId) (r : Nat)               -- the socket takes r bytes
  | receive (i : CoroutineId)
  | granted (i : CoroutineId)
  | read (i : CoroutineId)                            -- a round of the loop
  deriving DecidableEq, Repr

variable {σ : Type}

/-- A round of `receive` after the callbacks: the message, or what goes on. -/
def settle (P : Parser σ) (r : Outcome σ) (buf : Bytes) (input : List Bytes) (md : MessageData) :
    (Message × Connection σ) ⊕ (MessageData × Connection σ) :=
  let consumed := if r.err = HPE_OK then buf.length else r.errorPos
  let buffer := if consumed = buf.length then [] else buf.drop consumed
  let stopped := r.err = HPE_PAUSED_UPGRADE ∨ r.err = HPE_PAUSED
  let parser := if r.err = HPE_PAUSED_UPGRADE then P.resumeAfterUpgrade r.parser
    else if r.err = HPE_PAUSED then P.resume r.parser else r.parser
  let md := if stopped then { md with state := .done } else md
  if r.err ≠ HPE_OK ∨ md.state = .done then
    .inl (conclude P (md.copyParserStatus (P.status parser)) ⟨parser, buffer, input⟩)
  else .inr (md, ⟨parser, buffer, input⟩)

namespace State

def start (c : Connection σ) : State σ := { connection := c }

def go (s : State σ) (i : CoroutineId) (control : Control) : State σ :=
  { s with control := Function.update s.control i control }

/-- `send_request` up to the lock for writing. -/
def ask (s : State σ) (i : CoroutineId) (iov : List Bytes) : State σ :=
  { s with
    write := s.write.lock.1.await i s.write.lock.2
    senders := s.senders ++ [i] }.go i (.locking iov s.write.lock.2)

/-- With the lock for writing held, `send_request` obtains the read ticket. -/
def obtain (s : State σ) (i : CoroutineId) (iov : List Bytes) : State σ :=
  { s with
    read := s.read.lock.1
    requests := s.requests ++ [(i, iov.flatten)] }.go i (.writing iov s.read.lock.2)

/-- The socket takes some bytes of several. -/
def writePart (s : State σ) (i : CoroutineId) (iov : List Bytes) (ticket : Handle) (r : Nat) : State σ :=
  { s with wire := s.wire ++ iov.flatten.take r }.go i (.writing (updateIovec iov r) ticket)

/-- The socket takes the last bytes; `send_request` returns, and its guard unlocks `m_[1]`. -/
def writeLast (s : State σ) (i : CoroutineId) (iov : List Bytes) (ticket : Handle) (r : Nat) : State σ :=
  { s with
    wire := s.wire ++ iov.flatten.take r, write := s.write.unlock
    senders := s.senders.erase i }.go i (.sent ticket)

/-- `receive` up to its `co_await ticket`. -/
def claim (s : State σ) (i : CoroutineId) (ticket : Handle) : State σ :=
  { s with read := s.read.await i ticket }.go i (.claiming ticket)

/-- `receive` has the lock for reading. -/
def enter (s : State σ) (i : CoroutineId) : State σ :=
  { s with data := i, md := Function.update s.md i { hm := { statusCode := 0 } } }.go i .reading

/-- The callbacks have worked on the `message_data` that `hp_.data` points to. -/
def callBack (s : State σ) (md : MessageData) : State σ :=
  { s with md := Function.update s.md s.data md }

/-- `receive` goes on with the next round. -/
def more (s : State σ) (i : CoroutineId) (r : MessageData × Connection σ) : State σ :=
  { s with md := Function.update s.md i r.1, connection := r.2 }

/-- `receive` returns or throws, and its guard unlocks `m_[0]`. -/
def finish (s : State σ) (i : CoroutineId) (r : Except Thrown Message × Connection σ) : State σ :=
  { s with
    read := s.read.unlock, connection := r.2
    responses := s.responses ++ [(i, r.1)] }.go i .idle

/-- A coroutine runs from one suspension to the next. What `send_request` is
called with, when a coroutine goes on, and how many bytes the socket takes at a
time is arbitrary. -/
def step (P : Parser σ) (methodName : UInt8 → Bytes) (host : Bytes) (s : State σ) :
    Label → Option (State σ)
  | .sendRequest i m =>
    match s.control i with
    | .idle => some (s.ask i (requestIov methodName host m))
    | _ => none
  | .locked i =>
    match s.control i with
    | .locking iov guard => if s.write.triggered guard then some (s.obtain i iov) else none
    | _ => none
  | .sendmsg i r =>
    match s.control i with
    | .writing iov ticket =>
      if 0 < r ∧ r ≤ iov.flatten.length then
        some (if msghdrDone iov r then s.writeLast i iov ticket r else s.writePart i iov ticket r)
      else none
    | _ => none
  | .receive i =>
    match s.control i with
    | .sent ticket => some (s.claim i ticket)
    | _ => none
  | .granted i =>
    match s.control i with
    | .claiming ticket => if s.read.triggered ticket then some (s.enter i) else none
    | _ => none
  | .read i =>
    match s.control i with
    | .reading =>
      match s.connection.next with
      | none => some (s.finish i ((conclude P (s.md i) s.connection).map .ok id))
      | some (buf, input) =>
        let r := P.execute s.connection.parser buf
        match (s.md s.data).handleAll P.room r.calls with
        | .error e =>
          some (s.finish i (.error e, ⟨P.unwound s.connection.parser buf, s.connection.buffer, input⟩))
        | .ok md =>
          let s := s.callBack md
          match settle P r buf input (s.md i) with
          | .inl done => some (s.finish i (done.map .ok id))
          | .inr going => some (s.more i going)
    | _ => none

/-- Who has a ticket and not its response yet, in the order of the tickets. -/
def pending (s : State σ) : List CoroutineId := (s.requests.drop s.responses.length).map Prod.fst

end State

namespace Control

/-- In `send_request`. -/
def Sends : Control → Prop
  | locking _ _ | writing _ _ => True
  | _ => False

/-- Has a ticket, or the lock it was for. -/
def Holds : Control → Prop
  | writing _ _ | sent _ | claiming _ | reading => True
  | _ => False

def guard : Control → Handle
  | locking _ guard => guard
  | _ => none

def ticket : Control → Handle
  | writing _ ticket | sent ticket | claiming ticket => ticket
  | _ => none

/-- What is left to send of a request with a ticket. -/
def unsent : Control → Bytes
  | writing iov _ => iov.flatten
  | _ => []

end Control

/-! Buffers. -/

theorem flatten_updateIovec (iov : List Bytes) (r : Nat) :
    (updateIovec iov r).flatten = iov.flatten.drop r := by
  induction iov generalizing r with
  | nil => simp [updateIovec]
  | cons b rest ih =>
      rw [updateIovec, List.flatten_cons]
      split
      · rename_i whole
        rw [ih, List.drop_append, List.drop_eq_nil_of_le whole, List.nil_append]
      · rename_i part
        rw [List.flatten_cons, List.drop_append_of_le_length (Nat.le_of_not_le part)]

theorem msghdrDone_iff (iov : List Bytes) (r : Nat) : msghdrDone iov r = true ↔ iov.flatten.length ≤ r := by
  induction iov generalizing r with
  | nil => simp [msghdrDone]
  | cons b rest ih =>
      rw [msghdrDone, List.flatten_cons, List.length_append]
      split
      · rename_i whole
        rw [ih]
        omega
      · simp only [Bool.false_eq_true, false_iff]
        omega

theorem requestIov_ne (methodName : UInt8 → Bytes) (host : Bytes) (m : Message) :
    (requestIov methodName host m).flatten ≠ [] := by
  simp [requestIov]

/-! The loop of `receive`, one round at a time. -/

variable {P : Parser σ} {md : MessageData} {c c' : Connection σ} {fuel : Nat}

theorem receiveFrom_end (ended : c.next = none) :
    receiveFrom P (fuel + 1) md c = some ((conclude P md c).map .ok id) := by
  rw [receiveFrom, ended]

theorem receiveFrom_round {buf : Bytes} {input : List Bytes} {md' : MessageData} (next : c.next = some (buf, input))
    (handled : md.handleAll P.room (P.execute c.parser buf).calls = .ok md') :
    receiveFrom P (fuel + 1) md c =
      (settle P (P.execute c.parser buf) buf input md').elim (fun done => some (done.map .ok id))
        fun (md, c) => receiveFrom P fuel md c := by
  rw [receiveFrom, next, settle]
  simp only [handled]
  rw [apply_ite (Sum.elim _ _)]
  rfl

/-- Enough rounds for the rest of the input. -/
def Enough (c : Connection σ) (fuel : Nat) : Prop := c.input.length + (if c.buffer = [] then 1 else 2) ≤ fuel

theorem Enough.succ (enough : Enough c fuel) : ∃ fuel', fuel = fuel' + 1 := by
  refine Nat.exists_eq_succ_of_ne_zero ?_
  unfold Enough at enough
  split at enough <;> omega

theorem settle_more {r : Outcome σ} {buf : Bytes} {input : List Bytes} {md' : MessageData}
    (more : settle P r buf input md = .inr (md', c')) : c'.buffer = [] ∧ c'.input = input := by
  by_cases ok : r.err = HPE_OK
  · have upgrade : HPE_OK ≠ HPE_PAUSED_UPGRADE := by decide
    have paused : HPE_OK ≠ HPE_PAUSED := by decide
    simp only [settle, ok, upgrade, paused, or_self, if_false, if_true, ne_eq, not_true_eq_false,
      false_or] at more
    split at more
    · contradiction
    · cases Sum.inr.inj more
      exact ⟨rfl, rfl⟩
  · simp [settle, ok] at more

theorem enough_settle {buf : Bytes} {input : List Bytes} {r : Outcome σ} {md' : MessageData}
    (enough : Enough c (fuel + 1)) (next : c.next = some (buf, input))
    (more : settle P r buf input md = .inr (md', c')) : Enough c' fuel := by
  obtain ⟨drained, rest⟩ := settle_more more
  simp only [Enough, drained, rest, if_true] at enough ⊢
  simp only [Connection.next] at next
  split at next
  · rename_i empty
    rw [if_pos (List.isEmpty_iff.mp empty)] at enough
    split at next
    · contradiction
    · rename_i piece left pieces
      split at next
      · contradiction
      · cases Option.some.inj next
        rw [pieces, List.length_cons] at enough
        omega
  · rename_i full
    rw [if_neg fun empty => full (List.isEmpty_iff.mpr empty)] at enough
    cases Option.some.inj next
    omega

theorem receives_snoc {count : Nat} {ms : List (Except Thrown Message)} {m : Except Thrown Message}
    {c'' : Connection σ}
    (before : receives P count c = some (ms, c')) (last : receive P c' = some (m, c'')) :
    receives P (count + 1) c = some (ms ++ [m], c'') := by
  induction count generalizing c ms with
  | zero =>
      cases Option.some.inj before
      simp [receives, last]
  | succ count ih =>
      rw [receives] at before
      simp only [Option.bind_eq_bind, Option.bind_eq_some_iff] at before
      obtain ⟨⟨first, c₁⟩, one, ⟨rest, c₂⟩, others, same⟩ := before
      cases Option.some.inj same
      rw [receives]
      simp [one, ih others]

end Cotamer.Http.Pipeline
