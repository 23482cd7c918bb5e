import Mathlib.Data.Fintype.Card
import Mathlib.Data.Finset.Card

/-! Votes in numbered rounds. A proposal is safe when some majority had moved on to its
round and says that nothing else was accepted since the round its value comes from;
then no two values are chosen. -/
namespace Cotamer.Ballots

variable {Server Value : Type} [Fintype Server]

def Majority (q : Finset Server) : Prop := Fintype.card Server / 2 < q.card

/-- Two majorities have a server in common. -/
theorem Majority.meet [DecidableEq Server] {p q : Finset Server} (left : Majority p) (right : Majority q) :
    ∃ i ∈ p, i ∈ q := by
  have total : (p ∩ q).card + (p ∪ q).card = p.card + q.card := Finset.card_inter_add_card_union p q
  have bound : (p ∪ q).card ≤ Fintype.card Server := Finset.card_le_univ _
  unfold Majority at left right
  have common : 0 < (p ∩ q).card := by omega
  obtain ⟨i, member⟩ := Finset.card_pos.mp common
  exact ⟨i, Finset.mem_inter.mp member⟩

/-- A list of distinct servers longer than half of them. -/
theorem majority_of_nodup [DecidableEq Server] {l : List Server} (nodup : l.Nodup)
    (many : Fintype.card Server / 2 < l.length) : Majority l.toFinset := by
  unfold Majority
  rw [List.toFinset_card_of_nodup nodup]
  exact many

/-- What was proposed and accepted in each round, and the round each server is in. -/
structure Votes (Server Value : Type) where
  proposed : Nat → Value → Prop
  accepted : Server → Nat → Value → Prop
  round : Server → Nat

namespace Votes

/-- A majority accepted the value in the round. -/
def Chosen (v : Votes Server Value) (r : Nat) (x : Value) : Prop :=
  ∃ q : Finset Server, Majority q ∧ ∀ i ∈ q, v.accepted i r x

/-- The servers of `q` are in round `r` or later, and accepted nothing between the rounds
`c` and `r`. -/
def Quiet (v : Votes Server Value) (q : Finset Server) (c r : Nat) : Prop :=
  ∀ i ∈ q, r ≤ v.round i ∧ ∀ k x, v.accepted i k x → k < r → k ≤ c

/-- The value of a proposal is that of an earlier one after which a majority was quiet,
or that majority has accepted nothing. -/
def Backed (v : Votes Server Value) (r : Nat) (x : Value) : Prop :=
  ∃ q c, Majority q ∧ c < r ∧ (0 < c → v.proposed c x) ∧ v.Quiet q c r

structure Sound (v : Votes Server Value) : Prop where
  one : ∀ r x y, v.proposed r x → v.proposed r y → x = y
  backed : ∀ r x, v.proposed r x → v.Backed r x
  accepts : ∀ i r x, v.accepted i r x → 0 < r ∧ v.proposed r x

variable {v w : Votes Server Value} {r k : Nat} {x y : Value}

/-- After a value is chosen, no other is proposed. -/
theorem Sound.proposed_eq [DecidableEq Server] (sound : v.Sound) (chosen : v.Chosen r x)
    (proposed : v.proposed k y) (later : r ≤ k) : y = x := by
  obtain ⟨q, majority, accepted⟩ := chosen
  induction k using Nat.strong_induction_on with
  | _ k ih =>
      obtain ⟨p, c, others, earlier, source, quiet⟩ := sound.backed k y proposed
      obtain ⟨i, left, right⟩ := majority.meet others
      obtain ⟨positive, first⟩ := sound.accepts i r x (accepted i left)
      rcases Nat.eq_or_lt_of_le later with rfl | later
      · exact sound.one r y x proposed first
      · have after : r ≤ c := (quiet i right).2 r x (accepted i left) later
        exact ih c earlier (source (Nat.lt_of_lt_of_le positive after)) after

/-- No two values are chosen. -/
theorem Sound.agree [DecidableEq Server] (sound : v.Sound) (left : v.Chosen r x)
    (right : v.Chosen k y) : x = y := by
  have proposed : ∀ {j z}, v.Chosen j z → v.proposed j z := by
    intro j z chosen
    obtain ⟨q, majority, accepted⟩ := chosen
    obtain ⟨i, member, _⟩ := majority.meet majority
    exact (sound.accepts i j z (accepted i member)).2
  rcases Nat.le_total r k with later | later
  · exact (sound.proposed_eq left (proposed right) later).symm
  · exact sound.proposed_eq right (proposed left) later

/-- What may happen to the votes: proposals and rounds only grow, and a server accepts
only in its round or later. -/
structure Grows (v w : Votes Server Value) : Prop where
  proposed : ∀ r x, v.proposed r x → w.proposed r x
  accepted : ∀ i r x, v.accepted i r x → w.accepted i r x
  fresh : ∀ i r x, w.accepted i r x → v.accepted i r x ∨ v.round i ≤ r
  round : ∀ i, v.round i ≤ w.round i

omit [Fintype Server] in

omit [Fintype Server] in
theorem Grows.quiet {q : Finset Server} (grows : v.Grows w) (quiet : v.Quiet q c r) : w.Quiet q c r := by
  intro i member
  obtain ⟨reached, silent⟩ := quiet i member
  refine ⟨reached.trans (grows.round i), fun k x accepted before => ?_⟩
  rcases grows.fresh i k x accepted with old | late
  · exact silent k x old before
  · omega

theorem Grows.backed (grows : v.Grows w) (backed : v.Backed r x) : w.Backed r x := by
  obtain ⟨q, c, majority, earlier, source, quiet⟩ := backed
  exact ⟨q, c, majority, earlier, fun positive => grows.proposed c x (source positive), grows.quiet quiet⟩

theorem Grows.chosen (grows : v.Grows w) (chosen : v.Chosen r x) : w.Chosen r x := by
  obtain ⟨q, majority, accepted⟩ := chosen
  exact ⟨q, majority, fun i member => grows.accepted i r x (accepted i member)⟩

/-- One step: a new proposal is the first of its round and backed, and a new vote is
for what its round proposes. -/
theorem Sound.step (sound : v.Sound) (grows : v.Grows w)
    (proposes : ∀ r x, w.proposed r x → v.proposed r x ∨ (∀ y, w.proposed r y → y = x) ∧ w.Backed r x)
    (accepts : ∀ i r x, w.accepted i r x → v.accepted i r x ∨ 0 < r ∧ w.proposed r x) : w.Sound := by
  constructor
  · intro r x y left right
    rcases proposes r x left with old | ⟨only, _⟩
    · rcases proposes r y right with old' | ⟨only, _⟩
      · exact sound.one r x y old old'
      · exact only x left
    · exact (only y right).symm
  · intro r x proposed
    rcases proposes r x proposed with old | ⟨_, backed⟩
    · exact grows.backed (sound.backed r x old)
    · exact backed
  · intro i r x accepted
    rcases accepts i r x accepted with old | new
    · exact ⟨(sound.accepts i r x old).1, grows.proposed r x (sound.accepts i r x old).2⟩
    · exact new

end Votes
end Cotamer.Ballots
