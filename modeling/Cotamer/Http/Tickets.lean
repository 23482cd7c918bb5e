import Cotamer.Http.Automaton
import Cotamer.Http.Pipeline

/-! Tickets and requests are in one order: who takes a ticket keeps `m_[1]` until
the request is sent, and `m_[0]` passes from ticket to ticket. -/
namespace Cotamer.Http.Pipeline
open Chunked Event Mutex Transition

variable {σ : Type} {P : Parser σ} {c₀ : Connection σ} {s t : State σ} {i j : CoroutineId}
  {control : Control} {iov : List Bytes} {guard ticket : Handle}

/-- What the owner of `m_[1]` has left to send. -/
def State.unsent (s : State σ) : Bytes := (s.senders.head?.map fun i => (s.control i).unsent).getD []

/-- The responses are the first of the stream, and whoever is reading is in the
middle of the next one. -/
def Streams (P : Parser σ) (c₀ : Connection σ) (s : State σ) : Prop :=
  ∃ c, receives P s.responses.length c₀ = some (s.responses.map Prod.snd, c) ∧
    ((∀ i, s.control i ≠ .reading) → s.connection = c) ∧
    ∀ i, s.control i = .reading →
      ∃ fuel, Enough s.connection fuel ∧ receive P c = receiveFrom P fuel (s.md i) s.connection

structure Sound (P : Parser σ) (c₀ : Connection σ) (s : State σ) : Prop where
  writeLine : Line s.write (s.senders.map fun i => (s.control i).guard)
  readLine : Line s.read (s.pending.map fun i => (s.control i).ticket)
  senders : s.senders.Nodup
  pending : s.pending.Nodup
  sends : ∀ i, i ∈ s.senders ↔ (s.control i).Sends
  holds : ∀ i, i ∈ s.pending ↔ (s.control i).Holds
  locking : ∀ i iov guard, s.control i = .locking iov guard → iov.flatten ≠ []
  writer : ∀ i iov ticket, s.control i = .writing iov ticket → s.senders.head? = some i ∧
    iov.flatten ≠ [] ∧ ∃ bytes, s.requests.getLast? = some (i, bytes) ∧ iov.flatten <:+ bytes
  reader : ∀ i, s.control i = .reading → s.pending.head? = some i ∧ s.data = i
  wire : s.wire ++ s.unsent = (s.requests.map Prod.snd).flatten
  answered : s.responses.map Prod.fst <+: s.requests.map Prod.fst
  streams : Streams P c₀ s

@[simp] theorem go_self (s : State σ) (i : CoroutineId) (control : Control) :
    (s.go i control).control i = control := Function.update_self ..

@[simp] theorem State.go_senders (s : State σ) : (s.go i control).senders = s.senders := rfl

@[simp] theorem State.go_pending (s : State σ) : (s.go i control).pending = s.pending := rfl

theorem go_ne (s : State σ) (control : Control) (other : j ≠ i) :
    (s.go i control).control j = s.control j := Function.update_of_ne other ..

/-- The others are where they were. -/
theorem map_go_absent {α : Type} (f : Control → α) {l : List CoroutineId} (absent : i ∉ l) :
    (l.map fun j => f ((s.go i c).control j)) = l.map fun j => f (s.control j) := by
  apply List.map_congr_left
  intro j member
  have other : j ≠ i := fun same => absent (same ▸ member)
  rw [go_ne s c other]

theorem map_go_same {α : Type} (f : Control → α) (same : f c = f (s.control i))
    (l : List CoroutineId) :
    (l.map fun j => f ((s.go i c).control j)) = l.map fun j => f (s.control j) := by
  apply List.map_congr_left
  intro j _
  by_cases here : j = i
  · rw [here, go_self, same]
  · rw [go_ne s c here]

/-- Of the others, and of one that goes where the same holds. -/
theorem forall_go {p : CoroutineId → Control → Prop} (mine : p i control)
    (others : ∀ j, j ≠ i → p j (s.control j)) (j : CoroutineId) : p j ((s.go i control).control j) := by
  by_cases here : j = i
  · rw [here, go_self]
    exact mine
  · rw [go_ne s control here]
    exact others j here

theorem Streams.keep (streams : Streams P c₀ s) (was : s.control i ≠ .reading) (is : control ≠ .reading)
    (responses : t.responses = s.responses) (connection : t.connection = s.connection)
    (md : t.md = s.md) (controls : t.control = (s.go i control).control) : Streams P c₀ t := by
  obtain ⟨c, before, idle, reading⟩ := streams
  rw [Streams, responses, connection, md, controls]
  refine ⟨c, before, fun nobody => idle fun j => ?_, forall_go
    (p := fun j control => control = .reading →
      ∃ fuel, Enough s.connection fuel ∧ receive P c = receiveFrom P fuel (s.md j) s.connection)
    (fun at_ => absurd at_ is) fun j _ => reading j⟩
  by_cases here : j = i
  · rwa [here]
  · exact go_ne s control here ▸ nobody j

theorem start_sound (P : Parser σ) (c₀ : Connection σ) : Sound P c₀ (.start c₀) where
  writeLine := .start
  readLine := .start
  senders := List.nodup_nil
  pending := List.nodup_nil
  sends _ := ⟨nofun, False.elim⟩
  holds _ := ⟨nofun, False.elim⟩
  locking _ _ _ at_ := nomatch at_
  writer _ _ _ at_ := nomatch at_
  reader _ at_ := nomatch at_
  wire := rfl
  answered := List.prefix_refl _
  streams := ⟨c₀, rfl, fun _ => rfl, fun _ at_ => nomatch at_⟩

/-- Only the owner of `m_[1]` is writing. -/
theorem Sound.writer_unique (sound : Sound P c₀ s) (first : s.senders.head? = some i)
    (other : j ≠ i) : s.control j ≠ .writing iov ticket := by
  intro writing
  obtain ⟨mine, _⟩ := sound.writer j iov ticket writing
  exact other (Option.some.inj (mine.symm.trans first))

theorem Sound.asks (sound : Sound P c₀ s) (idle : s.control i = .idle) (full : iov.flatten ≠ []) :
    Sound P c₀ (s.ask i iov) := by
  have absent : i ∉ s.senders := by
    rw [sound.sends, idle]
    exact id
  have unheld : i ∉ s.pending := by
    rw [sound.holds, idle]
    exact id
  refine ⟨?_, ?_, ?_, sound.pending, ?_, ?_, ?_, ?_, ?_, ?_, sound.answered, ?_⟩
  · apply Line.await
    have line := sound.writeLine.lock.1
    rw [State.ask, State.go_senders, List.map_append, map_go_absent Control.guard absent]
    simpa only [List.map_singleton, go_self, Control.guard] using line
  · have same := map_go_absent (s := s) (c := .locking iov s.write.lock.2) Control.ticket unheld
    exact same ▸ sound.readLine
  · exact List.nodup_append.mpr ⟨sound.senders, List.pairwise_singleton _ _,
      fun a member b single same => absent (by rwa [← List.mem_singleton.mp single, ← same])⟩
  · apply forall_go (p := fun j control => j ∈ s.senders ++ [i] ↔ control.Sends)
    · simp [Control.Sends]
    · intro j other
      simp [other, sound.sends j]
  · apply forall_go (p := fun j control => j ∈ s.pending ↔ control.Holds)
    · simp [Control.Holds, unheld]
    · exact fun j _ => sound.holds j
  · apply forall_go (p := fun j control => ∀ iov guard, control = .locking iov guard → iov.flatten ≠ [])
    · rintro _ _ ⟨⟩
      exact full
    · exact fun j _ => sound.locking j
  · apply forall_go (p := fun j control => ∀ iov ticket, control = .writing iov ticket →
      (s.senders ++ [i]).head? = some j ∧ iov.flatten ≠ [] ∧
        ∃ bytes, s.requests.getLast? = some (j, bytes) ∧ iov.flatten <:+ bytes)
    · exact nofun
    · intro j _ iov ticket writing
      obtain ⟨first, rest⟩ := sound.writer j iov ticket writing
      exact ⟨by rw [List.head?_append, first]; rfl, rest⟩
  · exact forall_go (p := fun j control => control = .reading → s.pending.head? = some j ∧ s.data = j)
      nofun fun j _ => sound.reader j
  · have same : (s.ask i iov).unsent = s.unsent := by
      cases queue : s.senders with
      | nil => simp [State.unsent, State.ask, State.go, queue, Control.unsent]
      | cons h rest =>
          have other : h ≠ i := fun same => absent (by rw [queue, same]; exact List.mem_cons_self ..)
          simp [State.unsent, State.ask, State.go, queue, Function.update_of_ne other]
    rw [same]
    exact sound.wire
  · exact sound.streams.keep (by simp [idle])
      (nofun : Control.locking iov s.write.lock.2 ≠ .reading) rfl rfl rfl rfl

theorem Sound.length (sound : Sound P c₀ s) : s.responses.length ≤ s.requests.length := by
  simpa using sound.answered.length_le

/-- The owner of `m_[1]` is alone in not being in line for it. -/
theorem Sound.front_sends (sound : Sound P c₀ s) (at_ : s.control i = .locking iov guard)
    (had : s.write.triggered guard = true) : s.senders.head? = some i := by
  apply sound.writeLine.first (f := fun j => (s.control j).guard)
  · rw [sound.sends, at_]
    trivial
  · rwa [at_]

theorem unsent_front (first : s.senders.head? = some i) : s.unsent = (s.control i).unsent := by
  rw [State.unsent, first]
  rfl

theorem Sound.obtains (sound : Sound P c₀ s) (at_ : s.control i = .locking iov guard)
    (had : s.write.triggered guard = true) : Sound P c₀ (s.obtain i iov) := by
  have first := sound.front_sends at_ had
  have unheld : i ∉ s.pending := by
    rw [sound.holds, at_]
    exact id
  have pending : (s.obtain i iov).pending = s.pending ++ [i] := by
    simp [State.obtain, State.go, State.pending, List.drop_append_of_le_length sound.length]
  obtain ⟨rest, queue⟩ := List.head?_eq_some_iff.mp first
  refine ⟨?_, ?_, sound.senders, ?_, ?_, ?_, ?_, ?_, ?_, ?_, ?_, ?_⟩
  · have line := sound.writeLine
    have once := sound.senders
    show Line s.write (s.senders.map fun j => ((s.obtain i iov).control j).guard)
    rw [queue] at once line ⊢
    rw [List.map_cons] at line ⊢
    rw [State.obtain, map_go_absent Control.guard (List.nodup_cons.mp once).1]
    exact line.claim (by rw [go_self]; rfl)
  · have line := sound.readLine.lock.1
    rw [pending, State.obtain, List.map_append, map_go_absent Control.ticket unheld, List.map_singleton,
      go_self]
    exact line
  · rw [pending]
    exact List.nodup_append.mpr ⟨sound.pending, List.pairwise_singleton _ _,
      fun a member b single same => unheld (by rwa [← List.mem_singleton.mp single, ← same])⟩
  · apply forall_go (p := fun j control => j ∈ s.senders ↔ control.Sends)
    · simp [Control.Sends, sound.sends i, at_]
    · exact fun j _ => sound.sends j
  · rw [pending]
    apply forall_go (p := fun j control => j ∈ s.pending ++ [i] ↔ control.Holds)
    · simp [Control.Holds]
    · intro j other
      simp [other, sound.holds j]
  · apply forall_go (p := fun j control => ∀ iov guard, control = .locking iov guard → iov.flatten ≠ [])
    · exact nofun
    · exact fun j _ => sound.locking j
  · apply forall_go (p := fun j control => ∀ iov' ticket, control = .writing iov' ticket →
      s.senders.head? = some j ∧ iov'.flatten ≠ [] ∧
        ∃ bytes, (s.requests ++ [(i, iov.flatten)]).getLast? = some (j, bytes) ∧ iov'.flatten <:+ bytes)
    · rintro _ _ ⟨⟩
      exact ⟨first, sound.locking i iov guard at_, iov.flatten, by simp, List.suffix_refl _⟩
    · exact fun j other iov ticket writing => absurd writing (sound.writer_unique first other)
  · rw [pending]
    apply forall_go (p := fun j control => control = .reading →
      (s.pending ++ [i]).head? = some j ∧ s.data = j)
    · exact nofun
    · intro j _ reading
      obtain ⟨front, data⟩ := sound.reader j reading
      exact ⟨by rw [List.head?_append, front]; rfl, data⟩
  · have wire := sound.wire
    rw [unsent_front first, at_] at wire
    change s.wire ++ [] = _ at wire
    rw [List.append_nil] at wire
    rw [unsent_front (s := s.obtain i iov) first, State.obtain, go_self, Control.unsent]
    simp [State.go, wire]
  · have longer := sound.answered.trans (List.prefix_append _ [i])
    simpa [State.obtain, State.go] using longer
  · exact sound.streams.keep (by simp [at_])
      (nofun : Control.writing iov s.read.lock.2 ≠ .reading) rfl rfl rfl rfl

theorem Sound.writesPart (sound : Sound P c₀ s) (at_ : s.control i = .writing iov ticket)
    {r : Nat} (part : r < iov.flatten.length) : Sound P c₀ (s.writePart i iov ticket r) := by
  obtain ⟨first, _, bytes, last, suffix⟩ := sound.writer i iov ticket at_
  have left := flatten_updateIovec iov r
  refine ⟨?_, ?_, sound.senders, sound.pending, ?_, ?_, ?_, ?_, ?_, ?_, sound.answered, ?_⟩
  · have same := map_go_same (c := .writing (updateIovec iov r) ticket) Control.guard
      (s := s) (i := i) (by rw [at_]; rfl) s.senders
    exact same ▸ sound.writeLine
  · have same := map_go_same (c := .writing (updateIovec iov r) ticket) Control.ticket
      (s := s) (i := i) (by rw [at_]; rfl) s.pending
    exact same ▸ sound.readLine
  · apply forall_go (p := fun j control => j ∈ s.senders ↔ control.Sends)
    · simp [Control.Sends, sound.sends i, at_]
    · exact fun j _ => sound.sends j
  · apply forall_go (p := fun j control => j ∈ s.pending ↔ control.Holds)
    · simp [Control.Holds, sound.holds i, at_]
    · exact fun j _ => sound.holds j
  · apply forall_go (p := fun j control => ∀ iov guard, control = .locking iov guard → iov.flatten ≠ [])
    · exact nofun
    · exact fun j _ => sound.locking j
  · apply forall_go (p := fun j control => ∀ iov ticket, control = .writing iov ticket →
      s.senders.head? = some j ∧ iov.flatten ≠ [] ∧
        ∃ bytes, s.requests.getLast? = some (j, bytes) ∧ iov.flatten <:+ bytes)
    · rintro _ _ ⟨⟩
      rw [left]
      refine ⟨first, ?_, bytes, last, (List.drop_suffix r _).trans suffix⟩
      exact List.ne_nil_of_length_pos (by rw [List.length_drop]; omega)
    · exact fun j _ => sound.writer j
  · exact forall_go (p := fun j control => control = .reading → s.pending.head? = some j ∧ s.data = j)
      nofun fun j _ => sound.reader j
  · have wire := sound.wire
    rw [unsent_front first, at_, Control.unsent] at wire
    rw [unsent_front (s := s.writePart i iov ticket r) first, State.writePart, go_self, Control.unsent, left]
    show s.wire ++ iov.flatten.take r ++ iov.flatten.drop r = _
    rw [List.append_assoc, List.take_append_drop]
    exact wire
  · exact sound.streams.keep (by simp [at_])
      (nofun : Control.writing (updateIovec iov r) ticket ≠ .reading) rfl rfl rfl rfl

theorem Sound.writesLast (sound : Sound P c₀ s) (at_ : s.control i = .writing iov ticket)
    {r : Nat} (whole : iov.flatten.length ≤ r) : Sound P c₀ (s.writeLast i iov ticket r) := by
  obtain ⟨first, _⟩ := sound.writer i iov ticket at_
  obtain ⟨rest, queue⟩ := List.head?_eq_some_iff.mp first
  have once := sound.senders
  rw [queue] at once
  obtain ⟨absent, once⟩ := List.nodup_cons.mp once
  have senders : (s.writeLast i iov ticket r).senders = rest := by
    simp [State.writeLast, State.go, queue]
  refine ⟨?_, ?_, ?_, sound.pending, ?_, ?_, ?_, ?_, ?_, ?_, sound.answered, ?_⟩
  · have line := sound.writeLine
    rw [queue, List.map_cons] at line
    rw [senders, State.writeLast, map_go_absent Control.guard absent]
    exact line.unlock.1
  · have same := map_go_same (c := .sent ticket) Control.ticket
      (s := s) (i := i) (by rw [at_]; rfl) s.pending
    exact same ▸ sound.readLine
  · rwa [senders]
  · rw [senders]
    apply forall_go (p := fun j control => j ∈ rest ↔ control.Sends)
    · simp [Control.Sends, absent]
    · intro j other
      rw [← sound.sends j, queue]
      simp [other]
  · apply forall_go (p := fun j control => j ∈ s.pending ↔ control.Holds)
    · simp [Control.Holds, sound.holds i, at_]
    · exact fun j _ => sound.holds j
  · apply forall_go (p := fun j control => ∀ iov guard, control = .locking iov guard → iov.flatten ≠ [])
    · exact nofun
    · exact fun j _ => sound.locking j
  · rw [senders]
    apply forall_go (p := fun j control => ∀ iov ticket, control = .writing iov ticket →
      rest.head? = some j ∧ iov.flatten ≠ [] ∧
        ∃ bytes, s.requests.getLast? = some (j, bytes) ∧ iov.flatten <:+ bytes)
    · exact nofun
    · exact fun j other iov ticket writing => absurd writing (sound.writer_unique first other)
  · exact forall_go (p := fun j control => control = .reading → s.pending.head? = some j ∧ s.data = j)
      nofun fun j _ => sound.reader j
  · have wire := sound.wire
    rw [unsent_front first, at_, Control.unsent] at wire
    have nobody : (s.writeLast i iov ticket r).unsent = [] := by
      rw [State.unsent, senders]
      cases rest with
      | nil => rfl
      | cons h rest =>
          have other : h ≠ i := fun same => absent (same ▸ List.mem_cons_self ..)
          show ((s.writeLast i iov ticket r).control h).unsent = []
          rw [State.writeLast, go_ne _ _ other]
          cases place : s.control h with
          | writing iov ticket => exact absurd place (sound.writer_unique first other)
          | _ => rfl
    rw [nobody, List.append_nil]
    show s.wire ++ iov.flatten.take r = _
    rw [List.take_of_length_le whole]
    exact wire
  · exact sound.streams.keep (by simp [at_]) (nofun : Control.sent ticket ≠ .reading) rfl rfl rfl rfl

/-- A step that leaves the line for writing alone. -/
theorem Sound.elsewhere (sound : Sound P c₀ s) (out : ¬(s.control i).Sends) (is : ¬c.Sends) :
    (∀ j, j ∈ s.senders ↔ ((s.go i c).control j).Sends) ∧
    Line s.write (s.senders.map fun j => ((s.go i c).control j).guard) ∧
    (∀ j iov guard, (s.go i c).control j = .locking iov guard → iov.flatten ≠ []) ∧
    (∀ j iov ticket, (s.go i c).control j = .writing iov ticket → s.senders.head? = some j ∧
      iov.flatten ≠ [] ∧ ∃ bytes, s.requests.getLast? = some (j, bytes) ∧ iov.flatten <:+ bytes) ∧
    (s.senders.head?.map fun j => ((s.go i c).control j).unsent) =
      s.senders.head?.map fun j => (s.control j).unsent := by
  have absent : i ∉ s.senders := by
    rw [sound.sends]
    exact out
  refine ⟨?_, ?_, ?_, ?_, ?_⟩
  · apply forall_go (p := fun j control => j ∈ s.senders ↔ control.Sends)
    · exact iff_of_false absent is
    · exact fun j _ => sound.sends j
  · rw [map_go_absent Control.guard absent]
    exact sound.writeLine
  · apply forall_go (p := fun j control => ∀ iov guard, control = .locking iov guard → iov.flatten ≠ [])
    · rintro _ _ rfl
      exact absurd trivial is
    · exact fun j _ => sound.locking j
  · apply forall_go (p := fun j control => ∀ iov ticket, control = .writing iov ticket →
      s.senders.head? = some j ∧ iov.flatten ≠ [] ∧
        ∃ bytes, s.requests.getLast? = some (j, bytes) ∧ iov.flatten <:+ bytes)
    · rintro _ _ rfl
      exact absurd trivial is
    · exact fun j _ => sound.writer j
  · cases queue : s.senders with
    | nil => rfl
    | cons h rest =>
        have other : h ≠ i := fun same => absent (by rw [queue, same]; exact List.mem_cons_self ..)
        simp [go_ne s c other]

theorem Sound.claims (sound : Sound P c₀ s) (at_ : s.control i = .sent ticket) :
    Sound P c₀ (s.claim i ticket) := by
  obtain ⟨sends, writeLine, locking, writer, unsent⟩ :=
    sound.elsewhere (i := i) (c := .claiming ticket) (by rw [at_]; exact id) id
  refine ⟨writeLine, ?_, sound.senders, sound.pending, sends, ?_, locking, writer, ?_, ?_,
    sound.answered, ?_⟩
  · apply Line.await
    have same := map_go_same (c := .claiming ticket) Control.ticket
      (s := s) (i := i) (by rw [at_]; rfl) s.pending
    exact same ▸ sound.readLine
  · apply forall_go (p := fun j control => j ∈ s.pending ↔ control.Holds)
    · simp [Control.Holds, sound.holds i, at_]
    · exact fun j _ => sound.holds j
  · exact forall_go (p := fun j control => control = .reading → s.pending.head? = some j ∧ s.data = j)
      nofun fun j _ => sound.reader j
  · have same : (s.claim i ticket).unsent = s.unsent := congrArg (Option.getD · []) unsent
    rw [same]
    exact sound.wire
  · exact sound.streams.keep (by simp [at_]) (nofun : Control.claiming ticket ≠ .reading) rfl rfl rfl rfl

/-- Only the first with a ticket is reading. -/
theorem Sound.reader_unique (sound : Sound P c₀ s) (first : s.pending.head? = some i)
    (other : j ≠ i) : s.control j ≠ .reading := by
  intro reading
  obtain ⟨mine, _⟩ := sound.reader j reading
  exact other (Option.some.inj (mine.symm.trans first))

/-- A ticket that is granted is the first in line. -/
theorem Sound.front_holds (sound : Sound P c₀ s) (at_ : s.control i = .claiming ticket)
    (had : s.read.triggered ticket = true) : s.pending.head? = some i := by
  apply sound.readLine.first (f := fun j => (s.control j).ticket)
  · rw [sound.holds, at_]
    trivial
  · rwa [at_]

theorem Sound.enters (sound : Sound P c₀ s) (at_ : s.control i = .claiming ticket)
    (had : s.read.triggered ticket = true) : Sound P c₀ (s.enter i) := by
  have first := sound.front_holds at_ had
  obtain ⟨rest, queue⟩ := List.head?_eq_some_iff.mp first
  obtain ⟨sends, writeLine, locking, writer, unsent⟩ :=
    sound.elsewhere (i := i) (c := .reading) (by rw [at_]; exact id) id
  refine ⟨writeLine, ?_, sound.senders, sound.pending, sends, ?_, locking, writer, ?_, ?_,
    sound.answered, ?_⟩
  · have line := sound.readLine
    have once := sound.pending
    show Line s.read (s.pending.map fun j => ((s.go i .reading).control j).ticket)
    rw [queue] at once line ⊢
    rw [List.map_cons] at line ⊢
    rw [map_go_absent Control.ticket (List.nodup_cons.mp once).1]
    exact line.claim (by rw [go_self]; rfl)
  · apply forall_go (p := fun j control => j ∈ s.pending ↔ control.Holds)
    · simp [Control.Holds, sound.holds i, at_]
    · exact fun j _ => sound.holds j
  · apply forall_go (p := fun j control => control = .reading → s.pending.head? = some j ∧ i = j)
    · exact fun _ => ⟨first, rfl⟩
    · exact fun j other reading => absurd reading (sound.reader_unique first other)
  · have same : (s.enter i).unsent = s.unsent := congrArg (Option.getD · []) unsent
    rw [same]
    exact sound.wire
  · obtain ⟨c, before, idle, _⟩ := sound.streams
    have nobody : ∀ j, s.control j ≠ .reading := by
      intro j
      by_cases here : j = i
      · rw [here, at_]
        exact nofun
      · exact sound.reader_unique first here
    have same := idle nobody
    refine ⟨c, before, fun none => absurd (go_self s i .reading) (none i), ?_⟩
    apply forall_go (p := fun j control => control = .reading → ∃ fuel, Enough s.connection fuel ∧
      receive P c = receiveFrom P fuel (Function.update s.md i { hm := { statusCode := 0 } } j) s.connection)
    · intro _
      refine ⟨s.connection.input.length + 2, ?_, ?_⟩
      · simp only [Enough]
        split <;> omega
      · rw [Function.update_self, same, receive]
    · exact fun j other reading => absurd reading (sound.reader_unique first other)

theorem callBack_md (md : MessageData) (data : s.data = i) : (s.callBack md).md i = md := by
  subst data
  exact Function.update_self ..

theorem callBack_idle (s : State σ) : s.callBack (s.md s.data) = s := by
  simp [State.callBack]

/-- A round of the loop in which the message is not complete. -/
theorem Sound.goesOn (sound : Sound P c₀ s) (at_ : s.control i = .reading) {buf : Bytes}
    {input : List Bytes} (next : s.connection.next = some (buf, input)) {md : MessageData}
    (handled : (s.md i).handleAll P.room (P.execute s.connection.parser buf).calls = .ok md)
    {r : MessageData × Connection σ}
    (going : settle P (P.execute s.connection.parser buf) buf input md = .inr r) :
    Sound P c₀ ((s.callBack md).more i r) := by
  obtain ⟨first, data⟩ := sound.reader i at_
  refine ⟨sound.writeLine, sound.readLine, sound.senders, sound.pending, sound.sends, sound.holds,
    sound.locking, sound.writer, sound.reader, sound.wire, sound.answered, ?_⟩
  obtain ⟨c, before, idle, reading⟩ := sound.streams
  refine ⟨c, before, fun none => absurd at_ (none i), fun j reads => ?_⟩
  obtain rfl : j = i := by
    by_contra other
    exact sound.reader_unique first other reads
  obtain ⟨fuel, enough, same⟩ := reading j at_
  obtain ⟨fuel, rfl⟩ := enough.succ
  refine ⟨fuel, enough_settle enough next going, ?_⟩
  rw [same, receiveFrom_round next handled, going, Sum.elim_inr]
  simp [State.more]

theorem Sound.finishes (sound : Sound P c₀ s) (at_ : s.control i = .reading) (md : MessageData)
    {d : Except Thrown Message × Connection σ}
    (result : ∀ fuel, Enough s.connection fuel → receiveFrom P fuel (s.md i) s.connection = some d) :
    Sound P c₀ ((s.callBack md).finish i d) := by
  obtain ⟨first, data⟩ := sound.reader i at_
  obtain ⟨rest, queue⟩ := List.head?_eq_some_iff.mp first
  obtain ⟨sends, writeLine, locking, writer, unsent⟩ :=
    sound.elsewhere (i := i) (c := .idle) (by rw [at_]; exact id) id
  have once := sound.pending
  rw [queue] at once
  obtain ⟨absent, once⟩ := List.nodup_cons.mp once
  have ahead : ∃ bytes more, s.requests.drop s.responses.length = (i, bytes) :: more ∧
      more.map Prod.fst = rest := by
    cases tail : s.requests.drop s.responses.length with
    | nil => simp [State.pending, tail] at queue
    | cons request more =>
        simp only [State.pending, tail, List.map_cons] at queue
        obtain ⟨mine, others⟩ := List.cons.inj queue
        exact ⟨request.2, more, by rw [← mine], others⟩
  obtain ⟨bytes, more, tail, others⟩ := ahead
  have pending : ((s.callBack md).finish i d).pending = rest := by
    show ((s.requests.drop (s.responses ++ [(i, d.1)]).length).map Prod.fst) = rest
    rw [List.length_append, List.length_singleton, ← List.drop_drop, tail]
    exact others
  refine ⟨writeLine, ?_, sound.senders, ?_, sends, ?_, locking, writer, ?_, ?_, ?_, ?_⟩
  · have line := sound.readLine
    rw [queue, List.map_cons] at line
    rw [pending, State.finish]
    have same := map_go_absent (s := s) (c := .idle) Control.ticket absent
    exact same ▸ line.unlock.1
  · rwa [pending]
  · rw [pending]
    apply forall_go (p := fun j control => j ∈ rest ↔ control.Holds)
    · exact iff_of_false absent id
    · intro j other
      show j ∈ rest ↔ (s.control j).Holds
      rw [← sound.holds j, queue]
      simp [other]
  · apply forall_go (p := fun j control => control = .reading →
      ((s.callBack md).finish i d).pending.head? = some j ∧ s.data = j)
    · exact nofun
    · exact fun j other reading => absurd reading (sound.reader_unique first other)
  · have same : ((s.callBack md).finish i d).unsent = s.unsent := congrArg (Option.getD · []) unsent
    rw [same]
    exact sound.wire
  · show (s.responses ++ [(i, d.1)]).map Prod.fst <+: s.requests.map Prod.fst
    have split := List.take_append_drop s.responses.length s.requests
    rw [tail] at split
    have whole : s.requests.map Prod.fst =
        (s.requests.take s.responses.length).map Prod.fst ++ i :: more.map Prod.fst := by
      simpa only [List.map_append, List.map_cons] using (congrArg (List.map Prod.fst) split).symm
    have taken : s.responses.map Prod.fst = (s.requests.take s.responses.length).map Prod.fst := by
      rw [List.map_take]
      simpa using List.prefix_iff_eq_take.mp sound.answered
    rw [List.map_append, taken, whole]
    exact ⟨more.map Prod.fst, by simp⟩
  · obtain ⟨c, before, idle, reading⟩ := sound.streams
    obtain ⟨fuel, enough, same⟩ := reading i at_
    rw [result fuel enough] at same
    have all := receives_snoc before same
    refine ⟨d.2, ?_, fun _ => rfl, ?_⟩
    · show receives P (s.responses ++ [(i, d.1)]).length c₀ =
        some ((s.responses ++ [(i, d.1)]).map Prod.snd, d.2)
      simpa using all
    · apply forall_go (p := fun j control => control = .reading → ∃ fuel, Enough d.2 fuel ∧
        receive P d.2 = receiveFrom P fuel ((s.callBack md).md j) d.2)
      · exact nofun
      · exact fun j other reading => absurd reading (sound.reader_unique first other)

variable {methodName : UInt8 → Bytes} {host : Bytes} {l : Label} {ls : List Label}

theorem step_sound (sound : Sound P c₀ s) (moved : s.step P methodName host l = some t) : Sound P c₀ t := by
  cases l with
  | sendRequest i m =>
      simp only [State.step] at moved
      split at moved
      · rename_i idle
        cases Option.some.inj moved
        exact sound.asks idle (requestIov_ne methodName host m)
      · contradiction
  | locked i =>
      simp only [State.step] at moved
      split at moved
      · rename_i iov guard at_
        obtain ⟨had, moved⟩ := Option.ite_none_right_eq_some.mp moved
        cases Option.some.inj moved
        exact sound.obtains at_ had
      · contradiction
  | sendmsg i r =>
      simp only [State.step] at moved
      split at moved
      · rename_i iov ticket at_
        obtain ⟨_, moved⟩ := Option.ite_none_right_eq_some.mp moved
        cases Option.some.inj moved
        split
        · rename_i whole
          exact sound.writesLast at_ ((msghdrDone_iff iov r).mp whole)
        · rename_i part
          exact sound.writesPart at_ (Nat.lt_of_not_le fun whole => part ((msghdrDone_iff iov r).mpr whole))
      · contradiction
  | receive i =>
      simp only [State.step] at moved
      split at moved
      · rename_i ticket at_
        cases Option.some.inj moved
        exact sound.claims at_
      · contradiction
  | granted i =>
      simp only [State.step] at moved
      split at moved
      · rename_i ticket at_
        obtain ⟨had, moved⟩ := Option.ite_none_right_eq_some.mp moved
        cases Option.some.inj moved
        exact sound.enters at_ had
      · contradiction
  | read i =>
      simp only [State.step] at moved
      split at moved
      · rename_i at_
        split at moved
        · rename_i ended
          cases Option.some.inj moved
          have finished := sound.finishes at_ (s.md s.data)
            (d := (conclude P (s.md i) s.connection).map .ok id) fun fuel enough => by
              obtain ⟨fuel, rfl⟩ := enough.succ
              exact receiveFrom_end ended
          rwa [callBack_idle] at finished
        · rename_i buf input next
          have data := (sound.reader i at_).2
          rw [data] at moved
          split at moved
          · rename_i e thrown
            cases Option.some.inj moved
            have finished := sound.finishes at_ (s.md s.data) (d := (.error e, _)) fun fuel enough => by
              obtain ⟨fuel, rfl⟩ := enough.succ
              exact receiveFrom_thrown next thrown fuel
            rwa [callBack_idle] at finished
          · rename_i md handled
            rw [callBack_md md data] at moved
            split at moved
            · rename_i done settled
              cases Option.some.inj moved
              apply sound.finishes at_
              intro fuel enough
              obtain ⟨fuel, rfl⟩ := enough.succ
              rw [receiveFrom_round next handled, settled]
              rfl
            · rename_i going settled
              cases Option.some.inj moved
              exact sound.goesOn at_ next handled settled
      · contradiction

theorem run_sound (path : Reaches (State.step P methodName host) (.start c₀) ls s) : Sound P c₀ s :=
  path.invariant (fun sound moved => step_sound sound moved) (start_sound P c₀)

/-! Somebody can always go on. -/

/-- A coroutine that is in the middle of an exchange goes on with it. -/
def Label.Resumes : Label → Prop
  | sendRequest _ _ => False
  | _ => True

/-- Some coroutine can go on with its exchange. -/
def State.Moves (s : State σ) (P : Parser σ) (methodName : UInt8 → Bytes) (host : Bytes) : Prop :=
  ∃ l : Label, l.Resumes ∧ (s.step P methodName host l).isSome = true

theorem writing_moves (at_ : s.control i = .writing iov ticket) (full : iov.flatten ≠ []) :
    s.Moves P methodName host := by
  refine ⟨.sendmsg i iov.flatten.length, trivial, ?_⟩
  have takes : 0 < iov.flatten.length ∧ iov.flatten.length ≤ iov.flatten.length :=
    ⟨List.length_pos_iff.mpr full, Nat.le_refl _⟩
  simp only [State.step, at_, takes, if_true, true_and, Option.isSome_some]

theorem reading_moves (at_ : s.control i = .reading) : s.Moves P methodName host := by
  refine ⟨.read i, trivial, ?_⟩
  simp only [State.step, at_]
  split
  · rfl
  · split
    · rfl
    · split <;> rfl

/-- Whoever has `m_[1]` can go on. -/
theorem Sound.sender_moves (sound : Sound P c₀ s) (sending : s.senders ≠ []) :
    s.Moves P methodName host := by
  obtain ⟨h, rest, queue⟩ := List.exists_cons_of_ne_nil sending
  have sends := (sound.sends h).mp (by rw [queue]; exact List.mem_cons_self ..)
  have front := sound.writeLine.front (s.control h).guard (by rw [queue]; rfl)
  cases at_ : s.control h with
  | locking iov guard =>
      rw [at_] at front
      refine ⟨.locked h, trivial, ?_⟩
      have had : s.write.triggered guard = true := front
      simp [State.step, at_, had]
  | writing iov ticket => exact writing_moves at_ (sound.writer h iov ticket at_).2.1
  | _ =>
      rw [at_] at sends
      exact sends.elim

/-- Whoever has `m_[0]` can go on. -/
theorem Sound.holder_moves (sound : Sound P c₀ s) (waiting : s.pending ≠ []) :
    s.Moves P methodName host := by
  obtain ⟨h, rest, queue⟩ := List.exists_cons_of_ne_nil waiting
  have holds := (sound.holds h).mp (by rw [queue]; exact List.mem_cons_self ..)
  have front := sound.readLine.front (s.control h).ticket (by rw [queue]; rfl)
  cases at_ : s.control h with
  | writing iov ticket => exact writing_moves at_ (sound.writer h iov ticket at_).2.1
  | sent ticket => exact ⟨.receive h, trivial, by simp [State.step, at_]⟩
  | claiming ticket =>
      rw [at_] at front
      refine ⟨.granted h, trivial, ?_⟩
      have had : s.read.triggered ticket = true := front
      simp [State.step, at_, had]
  | reading => exact reading_moves at_
  | _ =>
      rw [at_] at holds
      exact holds.elim

theorem Sound.moves (sound : Sound P c₀ s) (busy : s.control i ≠ .idle) : s.Moves P methodName host := by
  have one : (s.control i).Sends ∨ (s.control i).Holds := by
    cases at_ : s.control i with
    | idle => exact absurd at_ busy
    | locking iov guard => exact .inl trivial
    | _ => exact .inr trivial
  rcases one with sends | holds
  · exact sound.sender_moves (List.ne_nil_of_mem ((sound.sends i).mpr sends))
  · exact sound.holder_moves (List.ne_nil_of_mem ((sound.holds i).mpr holds))

/-- The wire carries whole requests in the order of their tickets, up to what is
left of the last one, whose sender is still writing. The responses of the stream
are returned in that order to those that sent the requests; and as long as some
exchange is not finished, some coroutine can go on. -/
theorem responses_reach_requesters (path : Reaches (State.step P methodName host) (.start c₀) ls s) :
    (∃ unsent, s.wire ++ unsent = (s.requests.map Prod.snd).flatten ∧
      (unsent = [] ∨ ∃ i iov ticket bytes, s.control i = .writing iov ticket ∧ unsent = iov.flatten ∧
        s.requests.getLast? = some (i, bytes) ∧ unsent <:+ bytes)) ∧
    s.responses.map Prod.fst <+: s.requests.map Prod.fst ∧
    (∃ c, receives P s.responses.length c₀ = some (s.responses.map Prod.snd, c)) ∧
    ((∃ i, s.control i ≠ .idle) → s.Moves P methodName host) := by
  have sound := run_sound path
  obtain ⟨c, stream, _⟩ := sound.streams
  refine ⟨⟨s.unsent, sound.wire, ?_⟩, sound.answered, ⟨c, stream⟩, fun ⟨i, busy⟩ => sound.moves busy⟩
  cases queue : s.senders with
  | nil =>
      left
      simp [State.unsent, queue]
  | cons h rest =>
      have first : s.senders.head? = some h := by
        rw [queue]
        rfl
      rw [unsent_front first]
      cases at_ : s.control h with
      | writing iov ticket =>
          obtain ⟨_, _, bytes, last, suffix⟩ := sound.writer h iov ticket at_
          exact .inr ⟨h, iov, ticket, bytes, at_, rfl, last, suffix⟩
      | _ => exact .inl rfl

/-! Responses without a body. -/

inductive Phase where
  | start
  | version
  | code
  | reason
  | lineEnd
  | lineStart
  | last
  deriving DecidableEq, Repr

def answerStatus (code : UInt16) : Status := ⟨1, 1, code, 0, HPE_OK, false⟩

/-- A status line and an empty line. The state keeps the code. -/
def answerStep : Phase × UInt16 → UInt8 → (Phase × UInt16) × List Call
  | (.start, _), _ => ((.version, 0), [.messageBegin])
  | (.version, n), c => ((if c = space then .code else .version, n), [])
  | (.code, n), c => if c = space then ((.reason, n), []) else ((.code, 10 * n + (c - 48).toUInt16), [])
  | (.reason, n), c =>
    if c = cr then ((.lineEnd, n), []) else ((.reason, n), [.span (.status (answerStatus n)) [c]])
  | (.lineEnd, n), _ => ((.lineStart, n), [])
  | (.lineStart, n), _ => ((.last, n), [])
  | (.last, n), _ => ((.start, n), [.headersComplete (answerStatus n) 0, .messageComplete])

def answers : Machine (Phase × UInt16) where
  step := answerStep
  status st := answerStatus st.2

/-- Two responses, cut within the second. -/
def twoAnswers : Connection (Phase × UInt16) where
  parser := (.start, 0)
  input := [ascii "HTTP/1.1 204 No Content\x0d\n\x0d\nHTTP/1.1 304 No", ascii "t Modified\x0d\n\x0d\n"]

def getName (_ : UInt8) : Bytes := ascii "GET"

/-- The second request is asked for while the first is being written, and the
second ticket is granted before the second coroutine claims it. -/
def twoExchanges : List Label :=
  [.sendRequest 0 { url := ascii "/a" }, .locked 0, .sendmsg 0 10, .sendRequest 1 { url := ascii "/b" },
    .sendmsg 0 9, .receive 0, .locked 1, .granted 0, .sendmsg 1 19, .read 0, .receive 1, .granted 1,
    .read 1, .read 1]

theorem twoExchanges_run :
    (run (State.step answers.parser getName []) (.start twoAnswers) twoExchanges).isSome = true := by
  decide +kernel

theorem responses_reach_requesters_two :
    ∃ s, Reaches (State.step answers.parser getName []) (.start twoAnswers) twoExchanges s ∧
      s.responses.map (fun r => (r.1, r.2.map Message.statusCode)) = [(0, .ok 204), (1, .ok 304)] ∧
      s.responses.map Prod.fst <+: s.requests.map Prod.fst := by
  have path := run_iff_reaches.mp (Option.some_get twoExchanges_run).symm
  exact ⟨_, path, by decide +kernel, (responses_reach_requesters path).2.1⟩

end Cotamer.Http.Pipeline
