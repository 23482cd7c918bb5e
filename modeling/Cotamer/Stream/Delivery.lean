import Cotamer.Stream

/-! Messages arrive whole, once and in order however the bytes are cut, the buffers are
never overrun, and neither end waits for a loop that waits for it. -/
namespace Cotamer.Stream
open Transition

/-! The sender by itself. -/

/-- A loop that sleeps has been told nothing since it found nothing to write, and a
`send` that waits has a loop that will write. -/
structure Sender.Wf (s : Sender) : Prop where
  valid : s.buffer.Valid
  asleep : s.pc = .asleep → s.loop = false → s.buffer.len = 0
  waits : s.waiting.isSome = true → s.client = false → 0 < s.buffer.len
  done : s.pc = .done → s.client = true ∧ s.status ≠ .running

/-- A loop that sleeps found its data unread, and is told before that changes. -/
structure Receiver.Wf (s : Receiver) : Prop where
  valid : s.buffer.Valid
  asleep : s.pc = .asleep → s.loop = false → s.client = true
  done : s.pc = .done → s.client = true ∧ s.status ≠ .running

variable {s t : Channel} {x y : Sender} {r v : Receiver} {m : List UInt8} {a : Answer} {bytes wire wire' : List UInt8}
  {l : Label} {ls : List Label}

/-- The outcomes of `send`. -/
theorem trySend_cases (wf : x.Wf) (m : List UInt8) :
    (∃ y, x.trySend m = some (y, false) ∧ y.Wf ∧ (∀ m' ∈ y.waiting, m' = m) ∧ y.buffer = x.buffer) ∨
    ∃ y, x.trySend m = some (y, true) ∧ y.Wf ∧ (∀ m' ∈ y.waiting, m' = m) ∧ y.buffer.content = x.buffer.content ++ frame m ∧
      y.buffer.len = x.buffer.len + (m.length + 4) ∧
      (x.buffer.len = 0 ∨ x.buffer.len + m.length ≤ backlog) := by
  unfold Sender.trySend
  split
  · rename_i full
    refine .inl ⟨_, rfl, ⟨wf.valid, wf.asleep, fun _ _ => full.1, fun done => ?_⟩, ?_, rfl⟩
    · exact absurd full.2.2 (wf.done done).2
    · exact fun m' same => (Option.some.inj same).symm
  · rename_i room
    split
    · exact .inl ⟨_, rfl, ⟨wf.valid, wf.asleep, nofun, wf.done⟩, nofun, rfl⟩
    · rename_i running
      obtain ⟨buffer, appended, valid, len, content⟩ := Buffer.append_spec wf.valid m
      rw [appended]
      refine .inr ⟨_, rfl, ⟨valid, nofun, nofun, wf.done⟩, nofun, content, len, ?_⟩
      have running : x.status = .running := not_not.mp running
      simp only [running, and_true, not_and] at room
      omega

theorem writer_round (wf : x.Wf) (moved : x.round a = some (y, bytes)) :
    y.Wf ∧ x.buffer.content = bytes ++ y.buffer.content ∧ y.buffer.len ≤ x.buffer.len ∧ y.waiting = x.waiting := by
  unfold Sender.round at moved
  obtain ⟨active, moved⟩ := Option.ite_none_left_eq_some.mp moved
  have active : x.pc = .active := not_not.mp active
  split at moved
  · cases Option.some.inj moved
    exact ⟨⟨wf.valid, nofun, nofun, fun _ => ⟨rfl, nofun⟩⟩, rfl, Nat.le_refl _, rfl⟩
  split at moved
  · rename_i empty
    cases Option.some.inj moved
    exact ⟨⟨wf.valid, fun _ _ => empty, wf.waits, nofun⟩, rfl, Nat.le_refl _, rfl⟩
  · rename_i some
    cases a with
    | moved k =>
        obtain ⟨⟨positive, enough⟩, moved⟩ := Option.ite_none_right_eq_some.mp moved
        cases Option.some.inj moved
        obtain ⟨valid, len, content⟩ := Buffer.consume_spec wf.valid enough
        refine ⟨⟨valid, ?_, ?_, ?_⟩, ?_, ?_, rfl⟩
        · simp [active]
        · intro waits client
          have large := (Bool.or_eq_false_iff.mp client).2
          have large : ¬(x.buffer.consume k).len < backlog := of_decide_eq_false large
          have big : 0 < backlog := by decide
          simp only
          omega
        · simp [active]
        · simp only [content, List.take_append_drop]
        · simp only [len, Nat.sub_le]
    | again =>
        cases Option.some.inj moved
        exact ⟨⟨wf.valid, nofun, wf.waits, nofun⟩, rfl, Nat.le_refl _, rfl⟩
    | eof | failed | closed =>
        cases Option.some.inj moved
        exact ⟨⟨wf.valid, nofun, nofun, fun _ => ⟨rfl, nofun⟩⟩, rfl, Nat.le_refl _, rfl⟩

/-! The receiver by itself. -/

/-- The outcomes of `recv`. -/
theorem tryRecv_cases (wf : r.Wf) (row : r.buffer.content ++ wire = frames ms)
    (short : ∀ m ∈ ms, m.length + 4 < 2 ^ 32) :
    (∃ v, r.tryRecv = some (v, none) ∧ v.Wf ∧ v.buffer = r.buffer) ∨
    ∃ v m ms', r.tryRecv = some (v, some m) ∧ v.Wf ∧ ms = m :: ms' ∧ v.buffer.content ++ wire = frames ms' := by
  have pauses : ∃ v, (if r.status ≠ .running then some ({ r with waiting := false }, none)
      else some ({ r with loop := true, client := false, waiting := true }, (none : Option (List UInt8)))) =
        some (v, none) ∧ v.Wf ∧ v.buffer = r.buffer := by
    split
    · exact ⟨_, rfl, ⟨wf.valid, wf.asleep, wf.done⟩, rfl⟩
    · rename_i running
      exact ⟨_, rfl, ⟨wf.valid, nofun, fun done => absurd (wf.done done).2 running⟩, rfl⟩
  have length := Buffer.length_content wf.valid
  unfold Receiver.tryRecv
  rw [Buffer.firstMessageLength_spec wf.valid, Option.bind_some]
  by_cases header : r.buffer.len < 4
  · rw [if_pos header, if_pos (by omega)]
    exact .inl pauses
  · rw [if_neg header]
    obtain ⟨m, ms', rfl, number⟩ := first_header row (fun m member => by have := short m member; omega)
      (by omega)
    have small := short m List.mem_cons_self
    rw [number, Nat.mod_eq_of_lt small]
    split
    · exact .inl pauses
    · rename_i full
      obtain ⟨buffer, removed, valid, _, content⟩ := Buffer.remove_spec wf.valid (Nat.le_of_not_lt full)
      obtain ⟨first, rest⟩ := first_frame row (by omega)
      rw [removed, first]
      exact .inr ⟨_, m, ms', rfl, ⟨valid, wf.asleep, wf.done⟩, rfl, by rw [content, rest]⟩

/-- Whatever the header says, `recv` leaves the receiver in order. -/
theorem tryRecv_receiver (wf : r.Wf) (tried : r.tryRecv = some (v, result)) : v.Wf := by
  unfold Receiver.tryRecv at tried
  obtain ⟨fml, _, tried⟩ := Option.bind_eq_some_iff.mp tried
  split at tried
  · split at tried
    · cases Option.some.inj tried
      exact ⟨wf.valid, wf.asleep, wf.done⟩
    · rename_i running
      cases Option.some.inj tried
      exact ⟨wf.valid, nofun, fun done => absurd (wf.done done).2 running⟩
  · rename_i full
    obtain ⟨⟨m, buffer⟩, removed, same⟩ := Option.map_eq_some_iff.mp tried
    cases same
    have large : ¬fml < 4 := by
      intro less
      simp [Buffer.remove, less] at removed
    obtain ⟨k, rfl⟩ : ∃ k, fml = k + 4 := ⟨fml - 4, by omega⟩
    obtain ⟨b, done, valid, _⟩ := Buffer.remove_spec wf.valid (Nat.le_of_not_lt full)
    cases Option.some.inj (removed.symm.trans done)
    exact ⟨valid, wf.asleep, wf.done⟩

theorem reader_round (wf : r.Wf) (moved : r.round wire a = some (v, wire')) :
    v.Wf ∧ v.buffer.content ++ wire' = r.buffer.content ++ wire := by
  unfold Receiver.round at moved
  obtain ⟨active, moved⟩ := Option.ite_none_left_eq_some.mp moved
  have active : r.pc = .active := not_not.mp active
  split at moved
  · cases Option.some.inj moved
    exact ⟨⟨wf.valid, nofun, fun _ => ⟨rfl, nofun⟩⟩, rfl⟩
  split at moved
  · rename_i unread
    cases Option.some.inj moved
    exact ⟨⟨wf.valid, fun _ _ => unread, nofun⟩, rfl⟩
  · obtain ⟨buffer, reserved, valid, len, content, large⟩ := Buffer.reserve_spec wf.valid
    rw [reserved, Option.bind_some] at moved
    cases a with
    | moved k =>
        obtain ⟨⟨positive, room, there⟩, moved⟩ := Option.ite_none_right_eq_some.mp moved
        have few : (wire.take k).length ≤ buffer.room := by
          rw [List.length_take]
          omega
        obtain ⟨filled, fills, valid', len', content'⟩ := Buffer.fill_spec valid few
        rw [fills] at moved
        cases Option.some.inj moved
        refine ⟨⟨valid', fun _ _ => rfl, ?_⟩, ?_⟩
        · simp [active]
        · rw [content', content, List.append_assoc, List.take_append_drop]
    | again =>
        cases Option.some.inj moved
        exact ⟨⟨valid, nofun, nofun⟩, by rw [content]⟩
    | eof | failed | closed =>
        cases Option.some.inj moved
        exact ⟨⟨valid, nofun, fun _ => ⟨rfl, nofun⟩⟩, by rw [content]⟩

/-! Both ends. -/

/-- Both ends are in order. -/
structure Channel.Ends (s : Channel) : Prop where
  sender : s.sender.Wf
  receiver : s.receiver.Wf

theorem trySend_ends (ends : s.Ends) (sent : s.trySend m = some t) : t.Ends := by
  obtain ⟨⟨y, done⟩, tried, rfl⟩ := Option.map_eq_some_iff.mp sent
  rcases trySend_cases ends.sender m with ⟨z, same, wf, _⟩ | ⟨z, same, wf, _⟩ <;>
    rw [same] at tried <;> cases Option.some.inj tried <;> exact ⟨wf, ends.receiver⟩

theorem tryRecv_ends (ends : s.Ends) (received : s.tryRecv = some t) : t.Ends := by
  obtain ⟨⟨v, result⟩, tried, rfl⟩ := Option.map_eq_some_iff.mp received
  exact ⟨ends.sender, tryRecv_receiver ends.receiver tried⟩

theorem step_ends (ends : s.Ends) (moved : s.step l = some t) : t.Ends := by
  cases l with
  | send m => exact trySend_ends ends (Option.ite_none_right_eq_some.mp moved).2
  | resend =>
      obtain ⟨m, _, sent⟩ := Option.bind_eq_some_iff.mp (Option.ite_none_right_eq_some.mp moved).2
      exact trySend_ends ends sent
  | write a =>
      obtain ⟨⟨y, bytes⟩, rounds, rfl⟩ := Option.map_eq_some_iff.mp moved
      exact ⟨(writer_round ends.sender rounds).1, ends.receiver⟩
  | wakeWriter =>
      obtain ⟨_, moved⟩ := Option.ite_none_right_eq_some.mp moved
      cases Option.some.inj moved
      exact ⟨⟨ends.sender.valid, nofun, ends.sender.waits, nofun⟩, ends.receiver⟩
  | recv => exact tryRecv_ends ends (Option.ite_none_left_eq_some.mp moved).2
  | rerecv => exact tryRecv_ends ends (Option.ite_none_right_eq_some.mp moved).2
  | read a =>
      obtain ⟨⟨v, wire⟩, rounds, rfl⟩ := Option.map_eq_some_iff.mp moved
      exact ⟨ends.sender, (reader_round ends.receiver rounds).1⟩
  | wakeReader =>
      obtain ⟨_, moved⟩ := Option.ite_none_right_eq_some.mp moved
      cases Option.some.inj moved
      exact ⟨ends.sender, ⟨ends.receiver.valid, nofun, nofun⟩⟩

theorem initial_ends : ({} : Channel).Ends :=
  ⟨⟨Buffer.initial_valid, nofun, nofun, nofun⟩, ⟨Buffer.initial_valid, nofun, nofun⟩⟩

theorem reached_ends (path : Reaches Channel.step {} ls s) : s.Ends :=
  path.invariant step_ends initial_ends

/-- What is on its way is the messages sent and not received. -/
structure Channel.Wf (s : Channel) : Prop extends Channel.Ends s where
  pending : ∃ ms, s.sent = s.received ++ ms ∧
    s.receiver.buffer.content ++ (s.wire ++ s.sender.buffer.content) = frames ms
  short : ∀ m ∈ s.sent, m.length + 4 < 2 ^ 32
  next : ∀ m ∈ s.sender.waiting, m.length + 4 < 2 ^ 32

/-- The length of a message fits in 32 bits, and with that of its header too. -/
def Short : Label → Prop
  | .send m => m.length + 4 < 2 ^ 32
  | _ => True

instance : ∀ l, Decidable (Short l)
  | .send m => inferInstanceAs (Decidable (m.length + 4 < 2 ^ 32))
  | .resend | .write _ | .wakeWriter | .recv | .rerecv | .read _ | .wakeReader => isTrue trivial

theorem trySend_wf (wf : s.Wf) (short : m.length + 4 < 2 ^ 32) (sent : s.trySend m = some t) : t.Wf := by
  obtain ⟨⟨y, done⟩, tried, rfl⟩ := Option.map_eq_some_iff.mp sent
  obtain ⟨ms, split, row⟩ := wf.pending
  rcases trySend_cases wf.sender m with ⟨z, same, wf', waits, buffer⟩ | ⟨z, same, wf', waits, content, _⟩ <;>
    rw [same] at tried <;> cases Option.some.inj tried <;>
    have next : ∀ m' ∈ y.waiting, m'.length + 4 < 2 ^ 32 := fun m' member => waits m' member ▸ short
  · exact ⟨⟨wf', wf.receiver⟩, ⟨ms, split, by rw [buffer, row]⟩, wf.short, next⟩
  · refine ⟨⟨wf', wf.receiver⟩, ⟨ms ++ [m], ?_, ?_⟩, ?_, next⟩
    · simp only [if_true, split, List.append_assoc]
    · rw [frames_append, ← row, content]
      simp only [frames_cons, frames_nil, List.append_nil, List.append_assoc]
    · intro m' member
      rcases List.mem_append.mp member with old | new
      · exact wf.short m' old
      · rw [List.mem_singleton.mp new]
        exact short

theorem tryRecv_wf (wf : s.Wf) (received : s.tryRecv = some t) : t.Wf := by
  obtain ⟨⟨v, result⟩, tried, rfl⟩ := Option.map_eq_some_iff.mp received
  obtain ⟨ms, split, row⟩ := wf.pending
  have short : ∀ m ∈ ms, m.length + 4 < 2 ^ 32 :=
    fun m member => wf.short m (split ▸ List.mem_append_right _ member)
  rcases tryRecv_cases wf.receiver row short with ⟨w, same, wf', buffer⟩ | ⟨w, m, ms', same, wf', first, rest⟩ <;>
    rw [same] at tried <;> cases Option.some.inj tried
  · refine ⟨⟨wf.sender, wf'⟩, ⟨ms, ?_, ?_⟩, wf.short, wf.next⟩
    · simp only [Option.toList_none, List.append_nil, split]
    · rw [buffer, row]
  · refine ⟨⟨wf.sender, wf'⟩, ⟨ms', ?_, rest⟩, wf.short, wf.next⟩
    simp only [Option.toList_some, List.append_assoc, split, first, List.singleton_append]

theorem step_wf (wf : s.Wf) (short : Short l) (moved : s.step l = some t) : t.Wf := by
  have ends := step_ends wf.toEnds moved
  cases l with
  | send m => exact trySend_wf wf short (Option.ite_none_right_eq_some.mp moved).2
  | resend =>
      obtain ⟨m, waits, sent⟩ := Option.bind_eq_some_iff.mp (Option.ite_none_right_eq_some.mp moved).2
      exact trySend_wf wf (wf.next m waits) sent
  | write a =>
      obtain ⟨⟨y, bytes⟩, rounds, rfl⟩ := Option.map_eq_some_iff.mp moved
      obtain ⟨_, content, _, waiting⟩ := writer_round wf.sender rounds
      obtain ⟨ms, split, row⟩ := wf.pending
      refine ⟨ends, ⟨ms, split, ?_⟩, wf.short, waiting ▸ wf.next⟩
      rw [List.append_assoc, ← content, row]
  | wakeWriter =>
      obtain ⟨_, moved⟩ := Option.ite_none_right_eq_some.mp moved
      cases Option.some.inj moved
      exact ⟨ends, wf.pending, wf.short, wf.next⟩
  | recv => exact tryRecv_wf wf (Option.ite_none_left_eq_some.mp moved).2
  | rerecv => exact tryRecv_wf wf (Option.ite_none_right_eq_some.mp moved).2
  | read a =>
      obtain ⟨⟨v, wire⟩, rounds, rfl⟩ := Option.map_eq_some_iff.mp moved
      obtain ⟨_, content⟩ := reader_round wf.receiver rounds
      obtain ⟨ms, split, row⟩ := wf.pending
      refine ⟨ends, ⟨ms, split, ?_⟩, wf.short, wf.next⟩
      rw [← List.append_assoc, content, List.append_assoc, row]
  | wakeReader =>
      obtain ⟨_, moved⟩ := Option.ite_none_right_eq_some.mp moved
      cases Option.some.inj moved
      exact ⟨ends, wf.pending, wf.short, wf.next⟩

theorem initial_wf : ({} : Channel).Wf where
  toEnds := initial_ends
  pending := ⟨[], rfl, rfl⟩
  short := nofun
  next := nofun

theorem reached_wf (path : Reaches Channel.step {} ls s) (short : ∀ l ∈ ls, Short l) : s.Wf :=
  path.guarded (fun wf ok moved => step_wf wf ok moved) (Meets.of_forall short) initial_wf

theorem eq_nil_of_frames (empty : frames ms = []) : ms = [] := by
  cases ms with
  | nil => rfl
  | cons m ms' =>
      have length := congrArg List.length empty
      simp [frame] at length

/-- The messages received are the first of those sent; when nothing is left on the way
they are all of them. -/
theorem messages_in_order (path : Reaches Channel.step {} ls s) (short : ∀ l ∈ ls, Short l) :
    ∃ ms, s.sent = s.received ++ ms ∧
      (s.sender.buffer.len = 0 → s.wire = [] → s.receiver.buffer.len = 0 → ms = []) := by
  have wf := reached_wf path short
  obtain ⟨ms, split, row⟩ := wf.pending
  refine ⟨ms, split, fun first second third => eq_nil_of_frames ?_⟩
  have left := List.eq_nil_of_length_eq_zero ((Buffer.length_content wf.sender.valid).trans first)
  have right := List.eq_nil_of_length_eq_zero ((Buffer.length_content wf.receiver.valid).trans third)
  rw [← row, left, second, right]
  rfl

theorem messages_in_order_cut : ∃ s : Channel, s.received = [[1, 2, 3]] ∧ ∃ ms, s.sent = s.received ++ ms ∧
    (s.sender.buffer.len = 0 → s.wire = [] → s.receiver.buffer.len = 0 → ms = []) := by
  have ran : (run Channel.step {} [.write .again, .read .again, .recv, .send [1, 2, 3], .wakeWriter, .wakeReader,
      .write (.moved 5), .read (.moved 5), .rerecv, .write (.moved 2), .read (.moved 2), .rerecv]).any
      (fun s => s.received == [[1, 2, 3]]) = true := by decide +kernel
  obtain ⟨s, path, here⟩ := (Option.any_eq_true _ _).mp ran
  exact ⟨s, beq_iff_eq.mp here, messages_in_order (run_iff_reaches.mp path) (by decide)⟩

/-- Whatever `send` or `recv` is called with and whatever `::read` returns, no access is
outside of its buffer, and there is always room to read into. -/
theorem buffers_never_overrun (path : Reaches Channel.step {} ls s) (short : ∀ l ∈ ls, Short l) :
    (∀ m, (s.sender.trySend m).isSome) ∧ s.receiver.tryRecv.isSome ∧
    ∃ b, s.receiver.buffer.reserve = some b ∧ 512 ≤ b.room ∧
      ∀ data : List UInt8, data.length ≤ b.room → (b.fill data).isSome := by
  have wf := reached_wf path short
  obtain ⟨ms, split, row⟩ := wf.pending
  refine ⟨fun m => ?_, ?_, ?_⟩
  · rcases trySend_cases wf.sender m with ⟨_, same, _⟩ | ⟨_, same, _⟩ <;> rw [same] <;> rfl
  · rcases tryRecv_cases wf.receiver row fun m member => wf.short m (split ▸ List.mem_append_right _ member) with
      ⟨_, same, _⟩ | ⟨_, _, _, same, _⟩ <;> rw [same] <;> rfl
  · obtain ⟨b, reserved, valid, _, _, large⟩ := Buffer.reserve_spec wf.receiver.valid
    refine ⟨b, reserved, large, fun data few => ?_⟩
    obtain ⟨_, filled, _⟩ := Buffer.fill_spec valid few
    rw [filled]
    rfl

theorem buffers_never_overrun_cut : ∃ s : Channel, s.receiver.buffer.len = 5 ∧
    s.receiver.tryRecv.isSome := by
  have ran : (run Channel.step {} [.write .again, .read .again, .recv, .send [1, 2, 3], .wakeWriter, .wakeReader,
      .write (.moved 5), .read (.moved 5), .rerecv]).any
      (fun s => s.receiver.buffer.len == 5) = true := by decide +kernel
  obtain ⟨s, path, here⟩ := (Option.any_eq_true _ _).mp ran
  exact ⟨s, beq_iff_eq.mp here, (buffers_never_overrun (run_iff_reaches.mp path) (by decide)).2.1⟩

/-- A `send` or `recv` that waits is woken, or its loop is not waiting for it. -/
theorem no_mutual_wait (path : Reaches Channel.step {} ls s) :
    (s.sender.waiting.isSome = true → s.sender.client = false →
      s.sender.pc = .active ∨ s.sender.pc.wakes s.sender.loop = true) ∧
    (s.receiver.waiting = true → s.receiver.client = false →
      s.receiver.pc = .active ∨ s.receiver.pc.wakes s.receiver.loop = true) := by
  have wf := reached_ends path
  constructor
  · intro waits deaf
    cases pc : s.sender.pc with
    | active => exact .inl rfl
    | polling => exact .inr rfl
    | asleep =>
        refine .inr ?_
        cases loop : s.sender.loop with
        | true => rfl
        | false =>
            have empty := wf.sender.asleep pc loop
            have some := wf.sender.waits waits deaf
            omega
    | done =>
        have woken := (wf.sender.done pc).1
        rw [deaf] at woken
        contradiction
  · intro _ deaf
    cases pc : s.receiver.pc with
    | active => exact .inl rfl
    | polling => exact .inr rfl
    | asleep =>
        refine .inr ?_
        cases loop : s.receiver.loop with
        | true => rfl
        | false =>
            have woken := wf.receiver.asleep pc loop
            rw [deaf] at woken
            contradiction
    | done =>
        have woken := (wf.receiver.done pc).1
        rw [deaf] at woken
        contradiction

theorem no_mutual_wait_cut : ∃ s : Channel, s.receiver.waiting = true ∧ s.receiver.client = false ∧
    (s.receiver.pc = .active ∨ s.receiver.pc.wakes s.receiver.loop = true) := by
  have ran : (run Channel.step {} [.write .again, .read .again, .recv, .send [1, 2, 3], .wakeWriter, .wakeReader,
      .write (.moved 5), .read (.moved 5), .rerecv]).any
      (fun s => s.receiver.waiting && !s.receiver.client) = true := by decide +kernel
  obtain ⟨s, path, here⟩ := (Option.any_eq_true _ _).mp ran
  obtain ⟨waits, deaf⟩ := Bool.and_eq_true_iff.mp here
  have deaf : s.receiver.client = false := by simpa using deaf
  exact ⟨s, waits, deaf, (no_mutual_wait (run_iff_reaches.mp path)).2 waits deaf⟩

/-! Backpressure. -/

/-- The backlog, or one message. -/
def Bounded (s : Channel) : Prop :=
  s.sender.buffer.len ≤ backlog + 4 ∨ ∃ m ∈ s.sent, s.sender.buffer.len ≤ m.length + 4

theorem trySend_bounded (ends : s.Ends) (bounded : Bounded s) (sent : s.trySend m = some t) : Bounded t := by
  obtain ⟨⟨y, done⟩, tried, rfl⟩ := Option.map_eq_some_iff.mp sent
  rcases trySend_cases ends.sender m with ⟨z, same, _, _, buffer⟩ | ⟨z, same, _, _, _, len, room⟩ <;>
    rw [same] at tried <;> cases Option.some.inj tried
  · simp only [Bounded, buffer, Bool.false_eq_true, if_false]
    exact bounded
  · simp only [Bounded, len, if_true]
    rcases room with empty | low
    · refine .inr ⟨m, List.mem_append_right _ List.mem_cons_self, ?_⟩
      omega
    · refine .inl ?_
      omega

theorem step_bounded (ends : s.Ends) (bounded : Bounded s) (moved : s.step l = some t) : Bounded t := by
  cases l with
  | send m => exact trySend_bounded ends bounded (Option.ite_none_right_eq_some.mp moved).2
  | resend =>
      obtain ⟨m, _, sent⟩ := Option.bind_eq_some_iff.mp (Option.ite_none_right_eq_some.mp moved).2
      exact trySend_bounded ends bounded sent
  | write a =>
      obtain ⟨⟨y, bytes⟩, rounds, rfl⟩ := Option.map_eq_some_iff.mp moved
      have less := (writer_round ends.sender rounds).2.2.1
      rcases bounded with low | ⟨m, member, low⟩
      · exact .inl (Nat.le_trans less low)
      · exact .inr ⟨m, member, Nat.le_trans less low⟩
  | wakeWriter =>
      obtain ⟨_, moved⟩ := Option.ite_none_right_eq_some.mp moved
      cases Option.some.inj moved
      exact bounded
  | recv =>
      obtain ⟨_, _, rfl⟩ := Option.map_eq_some_iff.mp (Option.ite_none_left_eq_some.mp moved).2
      exact bounded
  | rerecv =>
      obtain ⟨_, _, rfl⟩ := Option.map_eq_some_iff.mp (Option.ite_none_right_eq_some.mp moved).2
      exact bounded
  | read a =>
      obtain ⟨_, _, rfl⟩ := Option.map_eq_some_iff.mp moved
      exact bounded
  | wakeReader =>
      obtain ⟨_, moved⟩ := Option.ite_none_right_eq_some.mp moved
      cases Option.some.inj moved
      exact bounded

/-- A sender holds back no more than the backlog and a header, or one message. -/
theorem sender_bounded (path : Reaches Channel.step {} ls s) : Bounded s :=
  (path.invariant (P := fun s => s.Ends ∧ Bounded s)
    (fun ⟨ends, bounded⟩ moved => ⟨step_ends ends moved, step_bounded ends bounded moved⟩)
    ⟨initial_ends, .inl (Nat.zero_le _)⟩).2

theorem sender_bounded_cut : ∃ s : Channel, s.sender.buffer.len = 2 ∧ Bounded s := by
  have ran : (run Channel.step {} [.write .again, .read .again, .recv, .send [1, 2, 3], .wakeWriter, .wakeReader,
      .write (.moved 5), .read (.moved 5), .rerecv]).any
      (fun s => s.sender.buffer.len == 2) = true := by decide +kernel
  obtain ⟨s, path, here⟩ := (Option.any_eq_true _ _).mp ran
  exact ⟨s, beq_iff_eq.mp here, sender_bounded (run_iff_reaches.mp path)⟩

end Cotamer.Stream
