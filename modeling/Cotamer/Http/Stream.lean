import Cotamer.Http.Automaton

/-! Receiving from a stream that arrives in pieces. Whatever the pieces are, the
`receive` calls return the same messages and leave the same bytes. -/
namespace Cotamer.Http
open Chunked Spans

variable {σ : Type}

/-- The bytes are one message: the parser pauses right after them. -/
structure Complete (P : Parser σ) (st : σ) (bytes : Bytes) (parts : List Part) (st' : σ) : Prop where
  nonempty : bytes ≠ []
  paused : (P.execute st bytes).err = HPE_PAUSED
  all : (P.execute st bytes).errorPos = bytes.length
  calls : Cuts (P.execute st bytes).calls (messageCalls parts)
  resumed : P.resume (P.execute st bytes).parser = st'

/-- Messages one after the other, with the states between them. -/
inductive Messages (P : Parser σ) : σ → List (Bytes × List Part × σ) → σ → Prop where
  | nil (st) : Messages P st [] st
  | cons {st bytes parts st' sent st''} (first : Complete P st bytes parts st')
      (rest : Messages P st' sent st'') : Messages P st ((bytes, parts, st') :: sent) st''

/-- The message has the text of its parts, and the status of the parser after it. -/
def Delivers (P : Parser σ) (sent : Bytes × List Part × σ) (m : Message) : Prop :=
  m.Has sent.2.1 ∧ copyStatus (P.status sent.2.2) m = m

/-- The bytes that have arrived or will arrive. -/
def Connection.pending (c : Connection σ) : Bytes := c.buffer ++ c.input.flatten

/-- `recv` never returns zero bytes. -/
def Connection.Flowing (c : Connection σ) : Prop := ∀ piece ∈ c.input, piece ≠ []

variable {P : Parser σ} {st st' : σ} {a b rest buf : Bytes} {parts : List Part} {md : MessageData}
  {c c' : Connection σ} {input : List Bytes} {sent : List (Bytes × List Part × σ)}

/-! One message. -/

theorem Connection.next_some (flowing : c.Flowing) (more : c.pending ≠ []) :
    ∃ buf input, c.next = some (buf, input) ∧ buf ≠ [] ∧ buf ++ input.flatten = c.pending ∧
      (∀ piece ∈ input, piece ≠ []) ∧ (c.buffer = [] → input.length + 1 = c.input.length) ∧
      input.length ≤ c.input.length := by
  obtain ⟨parser, buffer, input⟩ := c
  cases buffer with
  | cons x buffer =>
      refine ⟨x :: buffer, input, rfl, List.cons_ne_nil _ _, rfl, flowing, fun none => ?_, Nat.le_refl _⟩
      exact absurd none (List.cons_ne_nil _ _)
  | nil =>
      cases input with
      | nil => exact absurd rfl more
      | cons piece input =>
          have some := flowing piece List.mem_cons_self
          refine ⟨piece, input, ?_, some, rfl, fun p member => flowing p (List.mem_cons_of_mem _ member),
            fun _ => rfl, Nat.le_succ _⟩
          simp [Connection.next, some]

theorem onSpan_unfinished (unfinished : md.state ≠ .done) (s : Bytes) (k : Span) :
    (md.onSpan s k).state ≠ .done := by
  have apart : ReceiveState.unknown ≠ .done := by decide
  cases k with
  | url => exact apart
  | status hp => exact apart
  | headerField =>
      simp only [MessageData.onSpan, MessageData.onHeaderField, MessageData.appendHeaders]
      split
      · exact unfinished
      · exact (by decide : ReceiveState.headerName ≠ .done)
  | headerValue => exact unfinished
  | body => exact unfinished

/-- Callbacks that ask for no pause do not finish a message. -/
theorem handle_unfinished {calls : List Call} {room : Nat} {md' : MessageData} (unfinished : md.state ≠ .done)
    (quiet : ∀ call ∈ calls, call.result = HPE_OK) (handled : md.handleAll room calls = .ok md') :
    md'.state ≠ .done := by
  induction calls generalizing md with
  | nil =>
      cases handled
      exact unfinished
  | cons call calls ih =>
      rw [MessageData.handleAll_cons] at handled
      cases one : md.handle room call with
      | error e =>
          rw [one] at handled
          contradiction
      | ok next =>
          rw [one] at handled
          refine ih ?_ (fun other member => quiet other (List.mem_cons_of_mem _ member)) handled
          have mine := quiet call List.mem_cons_self
          have apart : ReceiveState.unknown ≠ .done := by decide
          have reserved : ∀ (md : MessageData) {contentLength}, md.state ≠ .done →
              md.reserve room contentLength = .ok next → next.state ≠ .done := by
            intro md contentLength unfinished reserved
            unfold MessageData.reserve at reserved
            split at reserved
            · cases reserved
              exact unfinished
            · contradiction
          cases call with
          | messageBegin => cases one; exact apart
          | span k s => cases one; exact onSpan_unfinished unfinished s k
          | headerFieldComplete => cases one; exact (by decide : ReceiveState.headerValue ≠ .done)
          | headerValueComplete => cases one; exact apart
          | headersComplete hp contentLength => exact reserved (md.copyParserStatus hp) unfinished one
          | chunkHeader contentLength => exact reserved _ unfinished one
          | messageComplete => exact absurd mine (by decide)

/-- The rounds that are left are enough for the pieces that are left. -/
def Connection.Enough (c : Connection σ) (fuel : Nat) : Prop :=
  c.input.length + (if c.buffer = [] then 0 else 1) < fuel

/-- A round that finds the rest of the message, and maybe more. -/
theorem receiveFrom_last {md' : MessageData} (streaming : P.Streaming) (next : c.next = some (b ++ buf, input))
    (paused : (P.execute c.parser b).err = HPE_PAUSED)
    (all : (P.execute c.parser b).errorPos = b.length)
    (handled : md.handleAll P.room (P.execute c.parser b).calls = .ok md') (fuel : Nat) :
    receiveFrom P (fuel + 1) md c =
      some (.ok (copyStatus (P.status (P.resume (P.execute c.parser b).parser)) md'.hm),
        ⟨P.resume (P.execute c.parser b).parser, buf, input⟩) := by
  have error : (P.execute c.parser b).err ≠ HPE_OK := by
    rw [paused]
    decide
  have same := streaming.stopped c.parser b buf error
  have left : (if b.length = (b ++ buf).length then [] else (b ++ buf).drop b.length) = buf := by
    split
    · rename_i none
      rw [List.length_append] at none
      exact (List.eq_nil_of_length_eq_zero (by omega)).symm
    · exact List.drop_left
  have other : HPE_PAUSED ≠ HPE_PAUSED_UPGRADE := by decide
  have notOk : HPE_PAUSED ≠ HPE_OK := by decide
  simp only [receiveFrom, next, same, handled, paused, all, other, notOk, left, conclude,
    MessageData.copyParserStatus, ne_eq, not_false_eq_true, or_true, if_true, if_false,
    not_true_eq_false, false_and]
  rfl

/-- A round that finds a part of the message. -/
theorem receiveFrom_part {md' : MessageData} (streaming : P.Streaming) (next : c.next = some (a, input))
    (going : (P.execute c.parser a).err = HPE_OK) (unfinished : md.state ≠ .done)
    (handled : md.handleAll P.room (P.execute c.parser a).calls = .ok md') (fuel : Nat) :
    receiveFrom P (fuel + 1) md c = receiveFrom P fuel md' ⟨(P.execute c.parser a).parser, [], input⟩ := by
  have still := handle_unfinished unfinished (streaming.obeys c.parser a going) handled
  have other : HPE_OK ≠ HPE_PAUSED_UPGRADE := by decide
  have notPaused : HPE_OK ≠ HPE_PAUSED := by decide
  simp only [receiveFrom, next, handled, going, other, notPaused, or_self, if_true, if_false, ne_eq,
    not_true_eq_false, still]

/-- What `receive` makes of a message, from what its callbacks have made. -/
def deliver (P : Parser σ) (st' : σ) (md : MessageData) : Message := copyStatus (P.status st') md.hm

/-- From anywhere inside a message, the loop gets to its end, or to the callback that throws. -/
theorem receiveFrom_completes (streaming : P.Streaming) (fuel : Nat) :
    ∀ {md c b}, c.Enough fuel → c.Flowing → c.pending = b ++ rest → b ≠ [] → md.state ≠ .done →
      (P.execute c.parser b).err = HPE_PAUSED → (P.execute c.parser b).errorPos = b.length →
      P.resume (P.execute c.parser b).parser = st' →
      ∃ c', receiveFrom P fuel md c =
          some ((md.handleAll P.room (P.execute c.parser b).calls).map (deliver P st'), c') ∧
        ((md.handleAll P.room (P.execute c.parser b).calls).isOk = true →
          c'.parser = st' ∧ c'.Flowing ∧ c'.pending = rest) := by
  induction fuel with
  | zero => exact fun enough => absurd enough (Nat.not_lt_zero _)
  | succ fuel ih =>
      intro md c b enough flowing pending some unfinished paused all resumed
      obtain ⟨piece, input, next, nonempty, split, rest', shorter, le⟩ :=
        Connection.next_some flowing (by rw [pending]; exact List.append_ne_nil_of_left_ne_nil some _)
      rw [pending] at split
      -- all of the message, and maybe more
      have whole : ∀ buf, piece = b ++ buf → buf ++ input.flatten = rest → ∃ c', receiveFrom P (fuel + 1) md c =
          .some ((md.handleAll P.room (P.execute c.parser b).calls).map (deliver P st'), c') ∧
          ((md.handleAll P.room (P.execute c.parser b).calls).isOk = true →
            c'.parser = st' ∧ c'.Flowing ∧ c'.pending = rest) := by
        rintro buf rfl there
        have same := streaming.stopped c.parser b buf (by rw [paused]; decide)
        cases handled : md.handleAll P.room (P.execute c.parser b).calls with
        | error e =>
            rw [← same] at handled
            exact ⟨_, receiveFrom_thrown next handled fuel, nofun⟩
        | ok md' =>
            have round := receiveFrom_last streaming next paused all handled fuel
            rw [resumed] at round
            exact ⟨_, round, fun _ => ⟨rfl, rest', there⟩⟩
      rcases List.append_eq_append_iff.mp split with ⟨tail, here, there⟩ | ⟨tail, here, there⟩
      · by_cases last : tail = []
        · subst last
          rw [List.append_nil] at here
          exact whole [] (by rw [here, List.append_nil]) there
        · subst here
          have going : (P.execute c.parser piece).err = HPE_OK := by
            by_contra error
            rw [streaming.stopped c.parser piece tail error] at all
            have within := streaming.within c.parser piece error
            have positive := List.length_pos_of_ne_nil last
            rw [all, List.length_append] at within
            omega
          obtain ⟨cuts, parser, err, pos⟩ := streaming.goes c.parser piece tail going
          rw [paused] at err
          have pos := pos (by rw [← err]; decide)
          rw [all, List.length_append] at pos
          have reached : (P.execute (P.execute c.parser piece).parser tail).errorPos = tail.length := by
            omega
          have enough' : Connection.Enough ⟨(P.execute c.parser piece).parser, [], input⟩ fuel := by
            simp only [Connection.Enough, if_true] at enough ⊢
            split at enough
            · rename_i none
              have := shorter none
              omega
            · omega
          rw [parser] at resumed
          rw [cuts.handleAll, MessageData.handleAll_append]
          cases handled : md.handleAll P.room (P.execute c.parser piece).calls with
          | error e => exact ⟨_, receiveFrom_thrown next handled fuel, nofun⟩
          | ok md' =>
              rw [receiveFrom_part streaming next going unfinished handled fuel]
              exact ih (c := ⟨(P.execute c.parser piece).parser, [], input⟩) (b := tail) enough' rest' there last
                (handle_unfinished unfinished (streaming.obeys c.parser piece going) handled) err.symm reached
                resumed
      · exact whole tail here there.symm

/-! All messages. -/

/-- What `receive` returns for one message. -/
def received (P : Parser σ) (st : σ) (bytes : Bytes) (st' : σ) : Except Thrown Message :=
  (MessageData.handleAll P.room { hm := { statusCode := 0 } } (P.execute st bytes).calls).map (deliver P st')

theorem receive_message (streaming : P.Streaming) (complete : Complete P c.parser a parts st')
    (flowing : c.Flowing) (pending : c.pending = a ++ rest) :
    ∃ c', receive P c = some (received P c.parser a st', c') ∧
      ∀ m, received P c.parser a st' = .ok m → c'.parser = st' ∧ c'.Flowing ∧ c'.pending = rest := by
  have enough : c.Enough (c.input.length + 2) := by
    unfold Connection.Enough
    split <;> omega
  have unfinished : ({ hm := { statusCode := 0 } } : MessageData).state ≠ .done := by decide
  obtain ⟨c', done, goes⟩ := receiveFrom_completes streaming (c.input.length + 2) enough flowing pending
    complete.nonempty unfinished complete.paused complete.all complete.resumed
  refine ⟨c', done, fun m returned => goes ?_⟩
  cases handled : MessageData.handleAll P.room { hm := { statusCode := 0 } } (P.execute c.parser a).calls with
  | error e =>
      rw [received, handled] at returned
      contradiction
  | ok md => rfl

theorem deliver_has {md : MessageData} : (deliver P st' md).Has parts ↔ md.hm.Has parts :=
  ⟨fun ⟨⟨url, status, body, headers⟩, list⟩ => ⟨⟨url, status, body, headers⟩, list⟩,
    fun ⟨⟨url, status, body, headers⟩, list⟩ => ⟨⟨url, status, body, headers⟩, list⟩⟩

/-- A message is received as it was sent exactly if it is receivable. -/
theorem received_iff (complete : Complete P st a parts st') :
    (∃ m, received P st a st' = .ok m ∧ Delivers P (a, parts, st') m) ↔ Receivable P.room parts := by
  obtain ⟨fit, unfit⟩ := messageCalls_built P.room { hm := { statusCode := 0 } } rfl parts
  rw [← complete.calls.handleAll] at fit unfit
  constructor
  · rintro ⟨m, returned, has, _⟩
    by_cases fits : Fit P.room 0 parts
    · obtain ⟨md', handled, _, built⟩ := fit fits
      rw [received, handled] at returned
      cases returned
      exact ⟨fits, .inr (built.has.mp (deliver_has.mp has))⟩
    · rw [received, unfit fits] at returned
      contradiction
  · rintro ⟨fits, found⟩
    obtain ⟨md', handled, _, built⟩ := fit fits
    refine ⟨deliver P st' md', by rw [received, handled]; rfl, ?_, rfl⟩
    exact deliver_has.mpr (built.has.mpr (found.elim (@allFound_short _ [] _ rfl) id))

/-- However the stream is cut into pieces, as many `receive` calls as it has messages return
messages with the text, the headers and the status of those sent, and leave the bytes after them. -/
def ReceivedAlike (P : Parser σ) (st : σ) (sent : List (Bytes × List Part × σ)) (st' : σ) : Prop :=
  ∃ ms, List.Forall₂ (Delivers P) sent ms ∧ ∀ pieces rest, (∀ piece ∈ pieces, piece ≠ []) →
    pieces.flatten = (sent.map Prod.fst).flatten ++ rest →
    ∃ c, receives P sent.length ⟨st, [], pieces⟩ = some (ms.map .ok, c) ∧ c.parser = st' ∧ c.pending = rest

theorem Messages.nonempty (messages : Messages P st sent st') : ∀ x ∈ sent, x.1 ≠ [] := by
  induction messages with
  | nil st => exact List.forall_mem_nil _
  | cons first _ ih => exact List.forall_mem_cons.mpr ⟨first.nonempty, ih⟩

/-- Receivable messages are received, whatever the connection has of them by now. -/
theorem receivable_received (streaming : P.Streaming) (messages : Messages P st sent st')
    (receivable : ∀ x ∈ sent, Receivable P.room x.2.1) :
    ∃ ms, List.Forall₂ (Delivers P) sent ms ∧ ∀ (c : Connection σ) rest, c.parser = st → c.Flowing →
      c.pending = (sent.map Prod.fst).flatten ++ rest →
      ∃ c', receives P sent.length c = some (ms.map .ok, c') ∧ c'.parser = st' ∧ c'.pending = rest := by
  induction messages with
  | nil st =>
      refine ⟨[], .nil, fun c rest parser _ pending => ⟨c, rfl, parser, ?_⟩⟩
      simpa using pending
  | cons first _ ih =>
      rename_i st bytes parts st' sent st'' _
      obtain ⟨mine, others⟩ := List.forall_mem_cons.mp receivable
      obtain ⟨m, returned, delivered⟩ := (received_iff first).mpr mine
      obtain ⟨ms, delivers, rounds⟩ := ih others
      refine ⟨m :: ms, .cons delivered delivers, ?_⟩
      intro c rest parser flowing pending
      subst parser
      rw [List.map_cons, List.flatten_cons, List.append_assoc] at pending
      obtain ⟨c', one, goes⟩ := receive_message streaming first flowing pending
      obtain ⟨parser', flowing', pending'⟩ := goes m returned
      obtain ⟨c'', others, last⟩ := rounds c' rest parser' flowing' pending'
      refine ⟨c'', ?_, last⟩
      rw [returned] at one
      simp only [List.length_cons, receives, one, others, Option.bind_eq_bind, Option.bind_some]
      rfl

/-- Only receivable messages are. -/
theorem received_receivable (streaming : P.Streaming) (messages : Messages P st sent st') {ms : List Message}
    (delivers : List.Forall₂ (Delivers P) sent ms) (parser : c.parser = st) (flowing : c.Flowing)
    (pending : c.pending = (sent.map Prod.fst).flatten ++ rest)
    (returned : receives P sent.length c = some (ms.map .ok, c')) :
    ∀ x ∈ sent, Receivable P.room x.2.1 := by
  induction messages generalizing c ms with
  | nil st => exact List.forall_mem_nil _
  | cons first _ ih =>
      cases delivers with
      | cons delivered delivers =>
          subst parser
          rw [List.map_cons, List.flatten_cons, List.append_assoc] at pending
          obtain ⟨c₁, one, goes⟩ := receive_message streaming first flowing pending
          simp only [List.length_cons, receives, one, Option.bind_eq_bind, Option.bind_some] at returned
          obtain ⟨⟨rs, c₂⟩, others, same⟩ := Option.bind_eq_some_iff.mp returned
          obtain ⟨list, rfl⟩ := Prod.mk.inj (Option.some.inj same)
          obtain ⟨mine, rfl⟩ := List.cons.inj list
          obtain ⟨parser', flowing', pending'⟩ := goes _ mine
          exact List.forall_mem_cons.mpr
            ⟨(received_iff first).mp ⟨_, mine, delivered⟩, ih delivers parser' flowing' pending' others⟩

/-- That is so exactly if what is reserved for them can be, and their headers can be found
through offsets that wrap. -/
theorem messages_received (streaming : P.Streaming) (messages : Messages P st sent st') :
    ReceivedAlike P st sent st' ↔ ∀ x ∈ sent, Receivable P.room x.2.1 := by
  constructor
  · rintro ⟨ms, delivers, rounds⟩
    have pieces : ∀ piece ∈ sent.map Prod.fst, piece ≠ [] := by
      intro piece member
      obtain ⟨x, among, rfl⟩ := List.mem_map.mp member
      exact messages.nonempty x among
    obtain ⟨c, returned, _⟩ := rounds (sent.map Prod.fst) [] pieces (List.append_nil _).symm
    exact received_receivable (c := ⟨st, [], sent.map Prod.fst⟩) streaming messages delivers rfl pieces
      (List.append_nil _).symm returned
  · intro receivable
    obtain ⟨ms, delivers, rounds⟩ := receivable_received streaming messages receivable
    exact ⟨ms, delivers, fun pieces rest flowing split => rounds ⟨st, [], pieces⟩ rest rfl flowing split⟩

/-- Two requests, cut inside the url, a name, a value, and between them. -/
theorem messages_received_cut :
    let request := ascii "GET /a HTTP/1.1\r\nAb: c \r\nD:\r\n\r\n"
    let pieces := [request.take 5, (request.drop 5).take 13, (request.drop 18).take 5,
      request.drop 23 ++ request.take 6, request.drop 6]
    ∃ (ms : List Message) (c : Connection Phase),
      receives requests.parser 2 ⟨.start, [], pieces⟩ = some (ms.map .ok, c) ∧ c.pending = [] ∧
      ∀ m ∈ ms, m.url = ascii "/a" ∧
        m.headerList = [(ascii "Ab", ascii "c"), (ascii "D", [])] := by
  intro request pieces
  let parts : List Part := [.url (ascii "/a"), .header [ascii "Ab"] [ascii "c "],
    .header [ascii "D"] [], .headersComplete getStatus 0]
  have complete : Complete requests.parser .start request parts .start := by
    refine ⟨by decide, by decide, by decide, ?_, rfl⟩
    rw [show (requests.parser.execute .start request).calls = messageCalls parts from by decide]
    exact Cuts.refl _
  have messages : Messages requests.parser .start
      [(request, parts, .start), (request, parts, .start)] .start :=
    .cons complete (.cons complete (.nil _))
  have receivable : Receivable requests.parser.room parts := ⟨by decide, .inl (by decide)⟩
  obtain ⟨ms, delivered, rounds⟩ := (messages_received requests.streaming messages).mpr (by simp [receivable])
  obtain ⟨c, done, _, left⟩ := rounds pieces [] (by decide) (by decide)
  have has : ∀ m, Delivers requests.parser (request, parts, .start) m → m.url = ascii "/a" ∧
      m.headerList = [(ascii "Ab", ascii "c"), (ascii "D", [])] := by
    rintro m ⟨has, _⟩
    exact ⟨has.url.trans (by decide), has.headerList.trans (by decide)⟩
  refine ⟨ms, c, done, left, fun m member => ?_⟩
  cases delivered with
  | cons first rest =>
      cases rest with
      | cons second none =>
          cases none
          rcases List.mem_cons.mp member with rfl | member
          · exact has m first
          · rw [List.mem_singleton.mp member]
            exact has _ second

/-- The length of a body is reserved even if the body is not sent, as with status 304. -/
example : ¬Fit requests.parser.room 0 [.headersComplete getStatus 0xffffffffffffffff] := by decide +kernel

/-! A header text beyond 2^32 bytes. -/

theorem spans_cuts (k : Span) (s v : Bytes) :
    Cuts (.span k s :: v.map fun c => .span k [c]) [.span k (s ++ v)] := by
  induction v generalizing s with
  | nil => simpa using Cuts.refl _
  | cons c v ih =>
      have joined : Cuts (.span k s :: .span k [c] :: v.map fun c => .span k [c])
          (.span k (s ++ [c]) :: v.map fun c => .span k [c]) :=
        Cuts.symm (Relation.EqvGen.rel _ _ (Cut.split [] k s [c] _))
      have rest := ih (s ++ [c])
      rw [List.append_assoc] at rest
      exact joined.trans rest

theorem run_value {v : Bytes} (clean : cr ∉ v) : requests.run .value v =
    ⟨v.map fun c => .span .headerValue [c], .value, HPE_OK, v.length⟩ := by
  induction v with
  | nil => rfl
  | cons c v ih =>
      rw [List.mem_cons, not_or] at clean
      have here : requests.step .value c = (.value, [.span .headerValue [c]]) :=
        if_neg fun same => clean.1 same.symm
      have quiet : (Call.span .headerValue [c]).result = HPE_OK := rfl
      simp [Machine.run, here, ih clean.2, quiet]

/-- A request whose one header has the value `v` after an `a`. -/
def longRequest (v : Bytes) : Bytes := ascii "GET / HTTP/1.1\r\nA: a" ++ (v ++ [cr, lf, cr, lf])

def longParts (v : Bytes) : List Part :=
  [.url (ascii "/"), .header [ascii "A"] [ascii "a" ++ v], .headersComplete getStatus 0]

theorem run_longRequest {v : Bytes} (clean : cr ∉ v) : requests.run .start (longRequest v) =
    ⟨[.messageBegin, .span .url (ascii "/"), .span .headerField (ascii "A"), .headerFieldComplete] ++
        (.span .headerValue (ascii "a") :: v.map fun c => .span .headerValue [c]) ++
        [.headerValueComplete, .headersComplete getStatus 0, .messageComplete],
      .start, HPE_PAUSED, (longRequest v).length⟩ := by
  have front : requests.run .start (ascii "GET / HTTP/1.1\r\nA: a") = ⟨[.messageBegin,
      .span .url (ascii "/"), .span .headerField (ascii "A"), .headerFieldComplete,
      .span .headerValue (ascii "a")], .value, HPE_OK, 20⟩ := by
    decide
  have back : requests.run .value [cr, lf, cr, lf] = ⟨[.headerValueComplete, .headersComplete getStatus 0,
      .messageComplete], .start, HPE_PAUSED, 4⟩ := by
    decide
  rw [longRequest, run_goes (by rw [front]), front, run_goes (by rw [run_value clean]), run_value clean,
    back]
  simp

theorem longRequest_complete {v : Bytes} (clean : cr ∉ v) :
    Complete requests.parser .start (longRequest v) (longParts v) .start := by
  have ran : requests.parser.execute .start (longRequest v) = { requests.run .start (longRequest v) with
      calls := join (requests.run .start (longRequest v)).calls } := rfl
  have eq := run_longRequest clean
  refine ⟨?_, ?_, ?_, ?_, ?_⟩
  · simp [longRequest]
  · rw [ran, eq]
  · rw [ran, eq]
  · rw [ran, eq]
    have value := spans_cuts .headerValue (ascii "a") v
    exact (join_cuts _).trans (((Cuts.refl _).append value).append (Cuts.refl _))
  · rw [ran, eq]
    rfl

/-- The offsets of a header whose value has 2^32 bytes are those of an empty value. -/
theorem headerOffsets_long {value : Bytes} (long : value.length = 2 ^ 32)
    (solid : value.rdropWhile isHws = value) : headerOffsets [] (ascii "A") value = ⟨0, 1, 3, 3⟩ := by
  have start : (ascii "A" ++ [colon, space]).length = 3 := rfl
  have strip := stripFrom_value (ascii "A" ++ [colon, space]) value 3
    start.ge fun _ => start.symm
  have value1 : (BitVec.ofNat 32 (([] : Bytes).length + (ascii "A").length) + 2).toNat = 3 := by decide
  have wraps : BitVec.ofNat 32 (3 + 2 ^ 32) = 3 := by decide
  rw [start, solid, long] at strip
  have stop : (ascii "A" ++ [colon, space] ++ value).length = 3 + 2 ^ 32 := by
    rw [List.length_append, start, long]
  simp only [headerOffsets, List.nil_append, value1, stop, strip, wraps]
  decide

/-- `receive` returns the message with an empty value. -/
theorem receive_long {v : Bytes} (clean : cr ∉ v) (long : (ascii "a" ++ v).length = 2 ^ 32)
    (solid : (ascii "a" ++ v).rdropWhile isHws = ascii "a" ++ v) :
    ∃ (m : Message) (c : Connection Phase),
      receive requests.parser ⟨.start, [], [longRequest v]⟩ = some (.ok m, c) ∧ m.headerList.map Prod.snd = [[]] := by
  have complete := longRequest_complete clean
  have flowing : (⟨.start, [], [longRequest v]⟩ : Connection Phase).Flowing := by
    intro piece member
    rw [List.mem_singleton.mp member]
    exact complete.nonempty
  have pending : (⟨.start, [], [longRequest v]⟩ : Connection Phase).pending = longRequest v ++ [] := by
    simp [Connection.pending]
  obtain ⟨c, done, _⟩ := receive_message requests.streaming complete flowing pending
  have fits : Fit requests.parser.room 0 (longParts v) := ⟨trivial, trivial, Nat.zero_le (2 ^ 63 - 2), trivial⟩
  obtain ⟨md, handled, _, built⟩ := (messageCalls_built _ { hm := { statusCode := 0 } } rfl (longParts v)).1 fits
  rw [received, complete.calls.handleAll, handled] at done
  refine ⟨_, c, done, ?_⟩
  have offsets := headerOffsets_long long solid
  have hpairs : md.hm.hpairs = [⟨0, 1, 3, 3⟩] := by
    refine built.hpairs.trans ?_
    simp only [longParts, indexFrom, Part.offsets, Part.headerText, List.flatten_singleton, List.append_nil,
      List.nil_append, offsets]
  rw [Message.headerList, deliver, copyStatus, hpairs]
  simp [KvOffsets.value, slice]

/-- A value of 2^32 bytes. -/
def longValue : Bytes := List.replicate (2 ^ 32 - 1) 97

theorem longValue_spec : cr ∉ longValue ∧ (ascii "a" ++ longValue).length = 2 ^ 32 ∧
    (ascii "a" ++ longValue).rdropWhile isHws = ascii "a" ++ longValue := by
  have all : ∀ c ∈ ascii "a" ++ longValue, c = 97 := by
    intro c member
    rcases List.mem_append.mp member with first | later
    · exact List.mem_singleton.mp first
    · exact List.eq_of_mem_replicate later
  refine ⟨fun member => ?_, ?_, ?_⟩
  · exact absurd (all cr (List.mem_append_right _ member)) (by decide)
  · rw [List.length_append, longValue, List.length_replicate]
    rfl
  · rw [List.rdropWhile_eq_self_iff]
    intro some
    rw [all _ (List.getLast_mem some)]
    decide

/-- There the index has an empty value, as offsets are counted modulo 2^32. -/
theorem long_value_lost : ∃ (m : Message) (c : Connection Phase), requests.parser.Streaming ∧
    Complete requests.parser .start (longRequest longValue) (longParts longValue) .start ∧
    receive requests.parser ⟨.start, [], [longRequest longValue]⟩ = some (.ok m, c) ∧
    m.headerList ≠ (longParts longValue).flatMap Part.headers := by
  obtain ⟨clean, long, solid⟩ := longValue_spec
  obtain ⟨m, c, done, values⟩ := receive_long clean long solid
  refine ⟨m, c, requests.streaming, longRequest_complete clean, done, fun same => ?_⟩
  rw [same] at values
  have value : (longParts longValue).flatMap Part.headers =
      [(ascii "A", ascii "a" ++ longValue)] := by
    rw [← solid]
    simp only [longParts, List.flatMap_cons, List.flatMap_nil, Part.headers, List.nil_append,
      List.append_nil, List.flatten_singleton, solid]
  rw [value] at values
  exact absurd (List.cons.inj values).1 (List.cons_ne_nil _ _)

end Cotamer.Http
