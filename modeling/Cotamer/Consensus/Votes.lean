import Cotamer.Consensus
import Mathlib.Data.List.Perm.Basic
import Mathlib.Data.List.Perm.Subperm

/-! What holds of every server and every message in a run of the consensus algorithm.
The coroutine's place in its rounds only goes forward, and says what it has sent. -/
namespace Cotamer.Consensus
open Ballots Transition

variable {n : Nat} {s t u : State n} {i j : Fin n} {p q : Packet n} {sv : Server n} {m : Message}
  {k left : Nat}

def Pc.rank : Pc → Nat
  | .prepare => 0
  | .collect .. => 1
  | .propose _ => 2
  | .wait _ => 3
  | .ack _ => 4
  | .count .. => 5
  | .decide _ => 6
  | .finished => 7

theorem Pc.rank_le (pc : Pc) : pc.rank ≤ 7 := by
  cases pc <;> simp [rank]

/-- Rounds and the phases in them. -/
def Server.position (sv : Server n) : Nat := 8 * sv.round + sv.pc.rank

namespace State

def votes (s : State n) : Votes (Fin n) Color where
  proposed r x := (r, x) ∈ s.proposals
  accepted i r x := (i, r, x) ∈ s.accepts
  round i := (s.servers i).round

/-- All messages to a server that it may yet count, or has counted in its phase. -/
def bag (s : State n) (i : Fin n) : List (Packet n) :=
  s.inbox i ++ (s.servers i).stash ++ (s.servers i).heard

@[simp] theorem setServer_self : (s.setServer i sv).servers i = sv := Function.update_self ..

theorem setServer_ne (other : j ≠ i) : (s.setServer i sv).servers j = s.servers j :=
  Function.update_of_ne other ..

@[simp] theorem setServer_inbox : (s.setServer i sv).inbox = s.inbox := rfl
@[simp] theorem setServer_proposals : (s.setServer i sv).proposals = s.proposals := rfl
@[simp] theorem setServer_accepts : (s.setServer i sv).accepts = s.accepts := rfl
@[simp] theorem setServer_mail : (s.setServer i sv).mail = s.mail := rfl

end State

/-- No server sends two messages of these types in one round. -/
def Apart (p q : Packet n) : Prop :=
  p.message.type = q.message.type → p.message.type = .prepare ∨ p.message.type = .ack →
    p.message.round = q.message.round → p.source ≠ q.source

theorem Apart.symm (apart : Apart p q) : Apart q p :=
  fun type kind round source => apart type.symm (type ▸ kind) round.symm source.symm

theorem pairwise_apart_of_subperm {l l' : List (Packet n)} (sub : l.Subperm l') (apart : l'.Pairwise Apart) :
    l.Pairwise Apart := by
  obtain ⟨l'', perm, sublist⟩ := sub
  exact (perm.pairwise_iff fun h => h.symm).mp (apart.sublist sublist)

/-- A message was sent by a server that has passed the phase it belongs to. -/
def MessageOk (s : State n) (p : Packet n) : Prop :=
  match p.message.type with
  | .prepare =>
    8 * p.message.round + 1 ≤ (s.servers p.source).position ∧ p.message.colorRound < p.message.round ∧
    (0 < p.message.colorRound → (p.message.colorRound, p.message.color) ∈ s.proposals) ∧
    ∀ r x, (p.source, r, x) ∈ s.accepts → r < p.message.round → r ≤ p.message.colorRound
  | .propose => (p.message.round, p.message.color) ∈ s.proposals
  | .ack =>
    8 * p.message.round + 5 ≤ (s.servers p.source).position ∧
    (p.message.ack = true → ∃ x, (p.source, p.message.round, x) ∈ s.accepts)
  | .decide => ∃ r, s.votes.Chosen r p.message.color

/-- What a server has counted in its phase, and what it knows of its round. -/
def PhaseOk [NeZero n] (s : State n) (i : Fin n) (sv : Server n) : Prop :=
  match sv.pc with
  | .collect received _ => i = State.leader sv.round ∧ received = sv.heard.length ∧ received ≤ n / 2 ∧
      ∀ p ∈ sv.heard, p.message.type = .prepare ∧ p.message.round = sv.round ∧
        p.message.colorRound ≤ sv.colorRound
  | .propose _ => i = State.leader sv.round ∧ (sv.round, sv.color) ∈ s.proposals
  | .wait _ => i = State.leader sv.round → (sv.round, sv.color) ∈ s.proposals
  | .ack proposed => (i = State.leader sv.round → (sv.round, sv.color) ∈ s.proposals) ∧
      (proposed = true → ∃ x, (i, sv.round, x) ∈ s.accepts)
  | .count success total _ => i = State.leader sv.round ∧ (sv.round, sv.color) ∈ s.proposals ∧
      success = sv.heard.countP (·.message.ack) ∧ total = sv.heard.length ∧ total ≤ n / 2 ∧
      ∀ p ∈ sv.heard, p.message.type = .ack ∧ p.message.round = sv.round
  | .prepare | .decide _ | .finished => True

structure ServerOk [NeZero n] (s : State n) (i : Fin n) (sv : Server n) : Prop where
  positive : 0 < sv.round
  earlier : sv.colorRound ≤ sv.round
  before : sv.pc.rank ≤ 3 → sv.colorRound < sv.round
  colored : sv.decided = false → 0 < sv.colorRound → (sv.colorRound, sv.color) ∈ s.proposals
  accepts : ∀ r x, (i, r, x) ∈ s.accepts → r ≤ sv.colorRound
  decided : sv.decided = true → ∃ r, s.votes.Chosen r sv.color
  ended : 6 ≤ sv.pc.rank ↔ sv.decided = true
  phase : PhaseOk s i sv

/-- The invariant of a run. -/
structure Wf [NeZero n] (s : State n) : Prop where
  servers : ∀ i, ServerOk s i (s.servers i)
  messages : ∀ i, ∀ p ∈ s.bag i, MessageOk s p
  apart : ∀ i, (s.bag i).Pairwise Apart
  votes : s.votes.Sound
  known : ∀ r x, (r, x) ∈ s.proposals → 8 * r + 2 ≤ (s.servers (State.leader r)).position
  mail : ∀ m ∈ s.mail, m.type = .decide ∧ ∃ r, s.votes.Chosen r m.color

/-! One server moves, the others see more votes. -/

structure Moves (s t : State n) (i : Fin n) : Prop where
  others : ∀ j, j ≠ i → t.servers j = s.servers j
  position : (s.servers i).position ≤ (t.servers i).position
  proposals : s.proposals ⊆ t.proposals
  accepts : s.accepts ⊆ t.accepts
  fresh : ∀ j r x, (j, r, x) ∈ t.accepts → (j, r, x) ∈ s.accepts ∨ j = i ∧ r = (s.servers i).round

theorem Moves.position_le (moves : Moves s t i) (j : Fin n) :
    (s.servers j).position ≤ (t.servers j).position := by
  by_cases other : j = i
  · subst other
    exact moves.position
  · rw [moves.others j other]

theorem round_le_of_position {a b : Server n} (le : a.position ≤ b.position) : a.round ≤ b.round := by
  have left := a.pc.rank_le
  have right := b.pc.rank_le
  unfold Server.position at le
  omega

theorem Moves.grows (moves : Moves s t i) : s.votes.Grows t.votes where
  proposed _ _ old := moves.proposals old
  accepted _ _ _ old := moves.accepts old
  fresh j r x accepted := by
    rcases moves.fresh j r x accepted with old | ⟨rfl, rfl⟩
    · exact .inl old
    · exact .inr (Nat.le_refl _)
  round j := round_le_of_position (moves.position_le j)

theorem Moves.message (moves : Moves s t i) (ok : MessageOk s p) : MessageOk t p := by
  unfold MessageOk at ok ⊢
  split at ok
  · obtain ⟨sent, before, source, silent⟩ := ok
    refine ⟨sent.trans (moves.position_le _), before, fun positive => moves.proposals (source positive), ?_⟩
    intro r x accepted earlier
    rcases moves.fresh p.source r x accepted with old | ⟨here, late⟩
    · exact silent r x old earlier
    · have rank := (s.servers p.source).pc.rank_le
      unfold Server.position at sent
      rw [here] at sent rank
      omega
  · exact moves.proposals ok
  · obtain ⟨sent, voted⟩ := ok
    refine ⟨sent.trans (moves.position_le _), fun ack => ?_⟩
    obtain ⟨x, accepted⟩ := voted ack
    exact ⟨x, moves.accepts accepted⟩
  · obtain ⟨r, chosen⟩ := ok
    exact ⟨r, moves.grows.chosen chosen⟩

variable [NeZero n]

theorem Moves.phase (moves : Moves s t i) (ok : PhaseOk s j sv) : PhaseOk t j sv := by
  unfold PhaseOk at ok ⊢
  split at ok
  · exact ok
  · exact ⟨ok.1, moves.proposals ok.2⟩
  · exact fun leads => moves.proposals (ok leads)
  · refine ⟨fun leads => moves.proposals (ok.1 leads), fun proposed => ?_⟩
    obtain ⟨x, accepted⟩ := ok.2 proposed
    exact ⟨x, moves.accepts accepted⟩
  · exact ⟨ok.1, moves.proposals ok.2.1, ok.2.2⟩
  · trivial
  · trivial
  · trivial

theorem Moves.server (moves : Moves s t i) (other : j ≠ i) (ok : ServerOk s j sv) : ServerOk t j sv := by
  refine ⟨ok.positive, ok.earlier, ok.before, fun free positive => moves.proposals (ok.colored free positive),
    ?_, ?_, ok.ended, moves.phase ok.phase⟩
  · intro r x accepted
    rcases moves.fresh j r x accepted with old | ⟨same, _⟩
    · exact ok.accepts r x old
    · exact absurd same other
  · intro decided
    obtain ⟨r, chosen⟩ := ok.decided decided
    exact ⟨r, moves.grows.chosen chosen⟩

theorem ServerOk.congr (ok : ServerOk s i sv) (proposals : t.proposals = s.proposals)
    (accepts : t.accepts = s.accepts) : ServerOk t i sv := by
  have chosen : ∀ r x, s.votes.Chosen r x → t.votes.Chosen r x := by
    intro r x chosen
    simp only [Votes.Chosen, State.votes, accepts] at chosen ⊢
    exact chosen
  refine ⟨ok.positive, ok.earlier, ok.before, proposals ▸ ok.colored, accepts ▸ ok.accepts, ?_, ok.ended, ?_⟩
  · intro decided
    obtain ⟨r, old⟩ := ok.decided decided
    exact ⟨r, chosen r _ old⟩
  · have phase := ok.phase
    simp only [PhaseOk, proposals, accepts] at phase ⊢
    exact phase

/-- The frame rule: what is to be shown of a step of one server. -/
theorem Wf.moved (wf : Wf s) (moves : Moves s t i) (server : ServerOk t i (t.servers i))
    (messages : ∀ j, ∀ p ∈ t.bag j, p ∈ s.bag j ∨ MessageOk t p)
    (apart : ∀ j, (t.bag j).Pairwise Apart) (votes : t.votes.Sound)
    (known : ∀ r x, (r, x) ∈ t.proposals → (r, x) ∈ s.proposals ∨
      8 * r + 2 ≤ (t.servers (State.leader r)).position)
    (mail : ∀ m ∈ t.mail, m ∈ s.mail ∨ m.type = .decide ∧ ∃ r, t.votes.Chosen r m.color) : Wf t := by
  constructor
  · intro j
    by_cases other : j = i
    · subst other
      exact server
    · rw [moves.others j other]
      exact moves.server other (wf.servers j)
  · intro j p member
    rcases messages j p member with old | new
    · exact moves.message (wf.messages j p old)
    · exact new
  · exact apart
  · exact votes
  · intro r x proposed
    rcases known r x proposed with old | new
    · exact (wf.known r x old).trans (moves.position_le _)
    · exact new
  · intro m member
    rcases mail m member with old | new
    · obtain ⟨type, r, chosen⟩ := wf.mail m old
      exact ⟨type, r, moves.grows.chosen chosen⟩
    · exact new

/-- A step without a vote. -/
theorem Wf.quiet (wf : Wf s) (others : ∀ j, j ≠ i → t.servers j = s.servers j)
    (position : (s.servers i).position ≤ (t.servers i).position) (proposals : t.proposals = s.proposals)
    (accepts : t.accepts = s.accepts) (server : ServerOk s i (t.servers i))
    (bags : ∀ j, ∃ new : List (Packet n), (t.bag j).Subperm (new ++ s.bag j) ∧ new.Pairwise Apart ∧
      ∀ p ∈ new, MessageOk t p ∧ ∀ q ∈ s.bag j, Apart p q)
    (mail : ∀ m ∈ t.mail, m ∈ s.mail ∨ m.type = .decide ∧ ∃ r, s.votes.Chosen r m.color) : Wf t := by
  have moves : Moves s t i := by
    refine ⟨others, position, ?_, ?_, ?_⟩
    · rw [proposals]
      exact List.Subset.refl _
    · rw [accepts]
      exact List.Subset.refl _
    · intro j r x accepted
      exact .inl (accepts ▸ accepted)
  refine wf.moved moves (server.congr proposals accepts) ?_ ?_ ?_ ?_ ?_
  · intro j p member
    obtain ⟨new, sub, _, ok⟩ := bags j
    rcases List.mem_append.mp (sub.subset member) with sent | old
    · exact .inr (ok p sent).1
    · exact .inl old
  · intro j
    obtain ⟨new, sub, among, ok⟩ := bags j
    refine pairwise_apart_of_subperm sub (List.pairwise_append.mpr ⟨among, wf.apart j, ?_⟩)
    exact fun p sent q old => (ok p sent).2 q old
  · refine wf.votes.step moves.grows (fun r x proposed => .inl ?_) (fun j r x accepted => .inl ?_)
    · have proposed : (r, x) ∈ t.proposals := proposed
      rw [proposals] at proposed
      exact proposed
    · have accepted : (j, r, x) ∈ t.accepts := accepted
      rw [accepts] at accepted
      exact accepted
  · intro r x proposed
    exact .inl (proposals ▸ proposed)
  · intro m member
    rcases mail m member with old | ⟨type, r, chosen⟩
    · exact .inl old
    · exact .inr ⟨type, r, moves.grows.chosen chosen⟩

end Cotamer.Consensus
