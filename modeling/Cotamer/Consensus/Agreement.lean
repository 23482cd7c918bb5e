import Cotamer.Consensus.Votes

/-! Agreement: no two servers decide differently, whatever is delayed, reordered, lost
or wrongly suspected. -/
namespace Cotamer.Consensus
open Ballots Transition

variable {n : Nat} {s t u : State n} {i j : Fin n} {p q : Packet n} {sv : Server n} {m : Message} {pc : Pc}
  {k left : Nat}

/-! What a step does to the messages. -/

theorem bag_subperm {new : List (Packet n)} (inbox : (t.inbox j).Subperm (new ++ s.inbox j))
    (stash : (t.servers j).stash.Subperm (s.servers j).stash)
    (heard : (t.servers j).heard.Subperm (s.servers j).heard) : (t.bag j).Subperm (new ++ s.bag j) := by
  have all := (inbox.append stash).append heard
  simpa only [State.bag, List.append_assoc] using all

theorem bag_sent (stash : sv.stash = (s.servers i).stash) (heard : sv.heard = []) (k : Fin n) :
    (((s.post i j m).setServer i sv).bag k).Subperm ((if k = j then [⟨m, i⟩] else []) ++ s.bag k) := by
  have rest : (((s.post i j m).setServer i sv).servers k).stash.Subperm (s.servers k).stash ∧
      (((s.post i j m).setServer i sv).servers k).heard.Subperm (s.servers k).heard := by
    by_cases here : k = i
    · subst here
      simp only [State.setServer_self, stash, heard]
      exact ⟨List.Subperm.refl _, List.nil_subperm⟩
    · rw [State.setServer_ne here]
      exact ⟨List.Subperm.refl _, List.Subperm.refl _⟩
  refine bag_subperm ?_ rest.1 rest.2
  by_cases there : k = j
  · subst there
    simp only [State.setServer_inbox, State.post, Function.update_self, if_true]
    exact List.perm_append_comm.subperm
  · simp only [State.setServer_inbox, State.post, Function.update_of_ne there, if_neg there, List.nil_append]
    exact List.Subperm.refl _

theorem bag_kept (stash : sv.stash = (s.servers i).stash) (heard : sv.heard = []) (k : Fin n) :
    ((s.setServer i sv).bag k).Subperm ([] ++ s.bag k) := by
  by_cases here : k = i
  · subst here
    refine bag_subperm (List.Subperm.refl _) ?_ ?_
    · rw [State.setServer_self, stash]
    · rw [State.setServer_self, heard]
      exact List.nil_subperm
  · refine bag_subperm (List.Subperm.refl _) ?_ ?_ <;> rw [State.setServer_ne here]

theorem goto_position (rank : sv.pc.rank ≤ pc.rank) : sv.position ≤ (sv.goto pc).position := by
  simp only [Server.position, Server.goto]
  omega

variable [NeZero n]

theorem ServerOk.goto (ok : ServerOk s i sv) (ended : 6 ≤ pc.rank ↔ sv.decided = true)
    (before : pc.rank ≤ 3 → sv.colorRound < sv.round) (phase : PhaseOk s i (sv.goto pc)) :
    ServerOk s i (sv.goto pc) where
  positive := ok.positive
  earlier := ok.earlier
  before := before
  colored := ok.colored
  accepts := ok.accepts
  decided := ok.decided
  ended := ended
  phase := phase

/-- Phase 6. -/
theorem ServerOk.advance (ok : ServerOk s i sv) (going : sv.decided = false) :
    ServerOk s i ({ sv with round := sv.round + 1 }.goto .prepare) where
  positive := Nat.succ_pos _
  earlier := Nat.le_succ_of_le ok.earlier
  before _ := Nat.lt_succ_of_le ok.earlier
  colored := ok.colored
  accepts := ok.accepts
  decided := ok.decided
  ended := by simp [Server.goto, Pc.rank, going]
  phase := trivial

theorem ServerOk.going (ok : ServerOk s i sv) (early : sv.pc.rank < 6) : sv.decided = false := by
  have ended := ok.ended
  cases decided : sv.decided with
  | false => rfl
  | true => exact absurd (ended.mpr decided) (by omega)

/-- A server sends one message and goes on. -/
theorem Wf.sent (wf : Wf s) (server : ServerOk s i sv) (stash : sv.stash = (s.servers i).stash)
    (heard : sv.heard = []) (position : (s.servers i).position ≤ sv.position)
    (message : MessageOk ((s.post i j m).setServer i sv) ⟨m, i⟩) (apart : ∀ q ∈ s.bag j, Apart ⟨m, i⟩ q) :
    Wf ((s.post i j m).setServer i sv) := by
  refine wf.quiet (i := i) (fun k other => State.setServer_ne other) ?_ rfl rfl ?_ (fun k => ?_)
    (fun _ old => .inl old)
  · rw [State.setServer_self]
    exact position
  · rw [State.setServer_self]
    exact server
  · refine ⟨_, bag_sent stash heard k, ?_, ?_⟩
    · split <;> simp
    · intro p member
      split at member
      · obtain rfl := List.mem_singleton.mp member
        subst k
        exact ⟨message, apart⟩
      · exact nomatch member

/-- A server goes on without a message to another. -/
theorem Wf.kept (wf : Wf s) (server : ServerOk s i sv) (stash : sv.stash = (s.servers i).stash)
    (heard : sv.heard = []) (position : (s.servers i).position ≤ sv.position) : Wf (s.setServer i sv) := by
  refine wf.quiet (i := i) (fun k other => State.setServer_ne other) ?_ rfl rfl ?_ (fun k => ?_)
    (fun _ old => .inl old)
  · rw [State.setServer_self]
    exact position
  · rw [State.setServer_self]
    exact server
  · exact ⟨[], bag_kept stash heard k, List.Pairwise.nil, fun _ h => nomatch h⟩

/-- A message of a phase that its server has not passed is the first. -/
theorem Wf.first (wf : Wf s) {m : Message} (kind : m.type = .prepare ∨ m.type = .ack)
    (now : (s.servers i).position < 8 * m.round + (if m.type = .prepare then 1 else 5)) :
    ∀ q ∈ s.bag j, Apart ⟨m, i⟩ q := by
  intro q member type _ round same
  have ok := wf.messages j q member
  dsimp only at type round same
  subst same
  unfold MessageOk at ok
  rw [← type, ← round] at ok
  rcases kind with prepare | ack
  · simp only [prepare, if_true] at ok now
    omega
  · simp only [ack, reduceCtorEq, if_false] at ok now
    omega

/-! Phases 1, 3 and 4, and the broadcast of a decision. -/

theorem Wf.send_prepare (wf : Wf s) (phase : (s.servers i).pc = .prepare) :
    let sv := s.servers i
    Wf ((s.post i (State.leader sv.round) (prepareMessage sv.round sv.color sv.colorRound)).setServer i
      (sv.goto (if i = State.leader sv.round then .collect 0 sv.stash.length else .wait sv.stash.length))) := by
  intro sv
  have ok := wf.servers i
  have going := ok.going (by simp [phase, Pc.rank])
  have before : sv.colorRound < sv.round := ok.before (by simp [phase, Pc.rank])
  have place : sv.position = 8 * sv.round := by simp [Server.position, sv, phase, Pc.rank]
  apply wf.sent
  · apply ok.goto
    · split <;> simp [Pc.rank, going]
    · exact fun _ => before
    · split
      · exact ⟨‹_›, rfl, Nat.zero_le _, by rintro _ ⟨⟩⟩
      · exact fun leads => absurd leads ‹_›
  · rfl
  · rfl
  · apply goto_position
    simp [phase, Pc.rank]
  · refine ⟨?_, before, ok.colored going, fun r x accepted _ => ok.accepts r x accepted⟩
    rw [State.setServer_self]
    simp only [Server.position, Server.goto, prepareMessage]
    split <;> simp [Pc.rank, sv]
  · apply wf.first (.inl rfl)
    simp only [prepareMessage, if_true]
    change sv.position < _
    omega

theorem Wf.send_propose (wf : Wf s) {next : Nat} (phase : (s.servers i).pc = .propose next) (small : next < n) :
    let sv := s.servers i
    Wf ((s.post i ⟨next, small⟩ (proposeMessage sv.round sv.color)).setServer i
      (sv.goto (if next + 1 < n then .propose (next + 1) else .wait sv.stash.length))) := by
  intro sv
  have ok := wf.servers i
  have going := ok.going (by simp [phase, Pc.rank])
  have proposed := ok.phase
  simp only [PhaseOk, phase] at proposed
  apply wf.sent
  · apply ok.goto
    · split <;> simp [Pc.rank, going]
    · exact fun _ => ok.before (by simp [phase, Pc.rank])
    · split
      · exact proposed
      · exact fun _ => proposed.2
  · rfl
  · rfl
  · apply goto_position
    split <;> simp [phase, Pc.rank]
  · exact proposed.2
  · intro q _ _ kind
    rcases kind with kind | kind <;> contradiction

theorem Wf.send_ack (wf : Wf s) {proposed : Bool} (phase : (s.servers i).pc = .ack proposed) :
    let sv := s.servers i
    Wf ((s.post i (State.leader sv.round) (ackMessage sv.round proposed)).setServer i
      (if i = State.leader sv.round then sv.goto (.count 0 0 sv.stash.length)
        else { sv with round := sv.round + 1 }.goto .prepare)) := by
  intro sv
  have ok := wf.servers i
  have going := ok.going (by simp [phase, Pc.rank])
  have voted := ok.phase
  simp only [PhaseOk, phase] at voted
  have place : sv.position = 8 * sv.round + 4 := by simp [Server.position, sv, phase, Pc.rank]
  have later : 8 * sv.round + 5 ≤ (if i = State.leader sv.round then sv.goto (.count 0 0 sv.stash.length)
        else { sv with round := sv.round + 1 }.goto .prepare).position := by
    split
    · simp [Server.position, Server.goto, Pc.rank]
    · simp only [Server.position, Server.goto, Pc.rank]
      omega
  apply wf.sent
  · split
    · apply ok.goto
      · simp [Pc.rank, going]
      · simp [Pc.rank]
      · exact ⟨‹_›, voted.1 ‹_›, rfl, rfl, Nat.zero_le _, by rintro _ ⟨⟩⟩
    · exact ok.advance going
  · split <;> rfl
  · split <;> rfl
  · change sv.position ≤ _
    omega
  · refine ⟨?_, voted.2⟩
    rw [State.setServer_self]
    exact later
  · apply wf.first (.inr rfl)
    simp only [ackMessage, reduceCtorEq, if_false]
    change sv.position < _
    omega

theorem Wf.decided (wf : Wf s) {next : Option Nat} (phase : (s.servers i).pc = .decide next) :
    (s.servers i).decided = true ∧ ∃ r, s.votes.Chosen r (s.servers i).color := by
  have ok := wf.servers i
  have decided := ok.ended.mp (by simp [phase, Pc.rank])
  exact ⟨decided, ok.decided decided⟩

theorem Wf.send_decide (wf : Wf s) {next : Nat} (phase : (s.servers i).pc = .decide (some next))
    (small : next < n) :
    let sv := s.servers i
    let pc := if next + 1 < n then .decide (some (next + 1)) else .finished
    Wf ((if next = i then s else s.post i ⟨next, small⟩ (decideMessage sv.color)).setServer i (sv.goto pc)) := by
  intro sv pc
  have ok := wf.servers i
  obtain ⟨decided, chosen⟩ := wf.decided phase
  have rank : 6 ≤ pc.rank := by
    simp only [pc]
    split <;> simp [Pc.rank]
  have server : ServerOk s i (sv.goto pc) := by
    apply ok.goto
    · simp [rank, decided]
    · intro low
      omega
    · simp only [PhaseOk, Server.goto, pc]
      split
      all_goals first | trivial | (split at * <;> contradiction)
  have place : sv.position ≤ (sv.goto pc).position := by
    apply goto_position
    simp [sv, phase, Pc.rank] at rank ⊢
    exact rank
  split
  · exact wf.kept server rfl rfl place
  · apply wf.sent server rfl rfl place
    · exact chosen
    · intro q _ _ kind
      rcases kind with kind | kind <;> contradiction

theorem Wf.send_nancy (wf : Wf s) (phase : (s.servers i).pc = .decide none) :
    let sv := s.servers i
    Wf ({ s with mail := s.mail ++ [decideMessage sv.color] }.setServer i (sv.goto (.decide (some 0)))) := by
  intro sv
  have ok := wf.servers i
  obtain ⟨decided, chosen⟩ := wf.decided phase
  refine wf.quiet (i := i) (fun k other => State.setServer_ne other) ?_ rfl rfl ?_ (fun k => ?_) ?_
  · rw [State.setServer_self]
    apply goto_position
    simp [phase, Pc.rank]
  · rw [State.setServer_self]
    apply ok.goto
    · simp [Pc.rank, decided]
    · simp [Pc.rank]
    · trivial
  · have kept : ((s.setServer i (sv.goto (.decide (some 0)))).bag k).Subperm ([] ++ s.bag k) := by
      apply bag_kept
      · rfl
      · rfl
    exact ⟨[], kept, List.Pairwise.nil, by rintro _ ⟨⟩⟩
  · intro m member
    rcases List.mem_append.mp member with old | new
    · exact .inl old
    · rw [List.mem_singleton.mp new]
      exact .inr ⟨rfl, chosen⟩

theorem send_wf (wf : Wf s) (sent : s.send i = some t) : Wf t := by
  unfold State.send at sent
  cases phase : (s.servers i).pc with
  | prepare =>
      simp only [phase] at sent
      cases Option.some.inj sent
      exact wf.send_prepare phase
  | propose next =>
      simp only [phase] at sent
      obtain ⟨small, sent⟩ := Option.dite_none_right_eq_some.mp sent
      cases Option.some.inj sent
      exact wf.send_propose phase small
  | ack proposed =>
      simp only [phase] at sent
      cases Option.some.inj sent
      exact wf.send_ack phase
  | decide next =>
      cases next with
      | none =>
          simp only [phase] at sent
          cases Option.some.inj sent
          exact wf.send_nancy phase
      | some next =>
          simp only [phase] at sent
          obtain ⟨small, sent⟩ := Option.dite_none_right_eq_some.mp sent
          cases Option.some.inj sent
          exact wf.send_decide phase small
  | collect | wait | count | finished =>
      simp only [phase] at sent
      cases sent

theorem suspect_wf (wf : Wf s) (suspected : s.suspect i = some t) : Wf t := by
  have ok := wf.servers i
  unfold State.suspect at suspected
  obtain ⟨phase, suspected⟩ := Option.ite_none_right_eq_some.mp suspected
  cases Option.some.inj suspected
  have leads := ok.phase
  simp only [PhaseOk, phase] at leads
  apply wf.kept
  · apply ok.goto
    · simp [Pc.rank, ok.going (by simp [phase, Pc.rank])]
    · simp [Pc.rank]
    · exact ⟨leads, by simp⟩
  · rfl
  · rfl
  · apply goto_position
    simp [phase, Pc.rank]

/-! Receiving. -/

/-- A message was taken out of the stash or off the network. -/
structure Takes (s u : State n) (i : Fin n) (p : Packet n) : Prop where
  others : ∀ j, j ≠ i → u.servers j = s.servers j
  server : ∃ stash, u.servers i = { s.servers i with stash }
  bag : (p :: u.bag i).Subperm (s.bag i)
  bags : ∀ j, j ≠ i → u.bag j = s.bag j
  proposals : u.proposals = s.proposals
  accepts : u.accepts = s.accepts
  mail : u.mail = s.mail
  nancy : u.nancy = s.nancy

omit [NeZero n] in
theorem next_takes (next : s.next i k left = some (p, u)) : Takes s u i p := by
  cases left with
  | zero =>
      simp only [State.next] at next
      obtain ⟨p, found, same⟩ := Option.map_eq_some_iff.mp next
      cases same
      obtain ⟨small, rfl⟩ := List.getElem?_eq_some_iff.mp found
      refine ⟨fun _ _ => rfl, ⟨_, rfl⟩, ?_, ?_, rfl, rfl, rfl, rfl⟩
      · simp only [State.bag, Function.update_self]
        have perm := List.getElem_cons_eraseIdx_perm small
        exact ((perm.append_right _).append_right _).subperm
      · intro j other
        simp only [State.bag, Function.update_of_ne other]
  | succ left =>
      simp only [State.next] at next
      obtain ⟨p, found, same⟩ := Option.map_eq_some_iff.mp next
      cases same
      refine ⟨fun j other => State.setServer_ne other, ⟨(s.servers i).stash.tail, State.setServer_self⟩,
        ?_, ?_, rfl, rfl, rfl, rfl⟩
      · simp only [State.bag, State.setServer_self, State.setServer_inbox]
        cases stash : (s.servers i).stash with
        | nil =>
            rw [stash] at found
            exact nomatch found
        | cons q rest =>
            rw [stash] at found
            cases Option.some.inj found
            have perm : (p :: (s.inbox i ++ rest)).Perm (s.inbox i ++ p :: rest) := List.perm_middle.symm
            exact (perm.append_right _).subperm
      · intro j other
        simp only [State.bag, State.setServer_ne other, State.setServer_inbox]

theorem Takes.message (takes : Takes s u i p) (wf : Wf s) : MessageOk s p :=
  wf.messages i p (takes.bag.subset List.mem_cons_self)

theorem Takes.ok (takes : Takes s u i p) (wf : Wf s) : ServerOk s i (u.servers i) := by
  obtain ⟨stash, same⟩ := takes.server
  rw [same]
  have ok := wf.servers i
  exact ⟨ok.positive, ok.earlier, ok.before, ok.colored, ok.accepts, ok.decided, ok.ended, ok.phase⟩

omit [NeZero n] in
theorem Takes.position (takes : Takes s u i p) : (u.servers i).position = (s.servers i).position := by
  obtain ⟨stash, same⟩ := takes.server
  rw [same]
  rfl

omit [NeZero n] in
/-- The message that was taken is stashed, counted or dropped. -/
theorem Takes.bag_kept (takes : Takes s u i p)
    (kept : (sv.stash ++ sv.heard).Subperm (p :: ((u.servers i).stash ++ (u.servers i).heard))) (j : Fin n) :
    ((u.setServer i sv).bag j).Subperm (s.bag j) := by
  by_cases here : j = i
  · subst here
    refine List.Subperm.trans ?_ takes.bag
    have all := (List.Subperm.refl (u.inbox j)).append kept
    have front := (@List.perm_middle _ p (u.inbox j) ((u.servers j).stash ++ (u.servers j).heard)).subperm
    simpa only [State.bag, State.setServer_self, State.setServer_inbox, List.append_assoc] using all.trans front
  · have same : (u.setServer i sv).bag j = s.bag j := by
      rw [← takes.bags j here]
      simp only [State.bag, State.setServer_ne here, State.setServer_inbox]
    rw [same]

/-- A message is taken and no vote comes of it. -/
theorem Takes.quiet (takes : Takes s u i p) (wf : Wf s) (server : ServerOk s i sv)
    (kept : (sv.stash ++ sv.heard).Subperm (p :: ((u.servers i).stash ++ (u.servers i).heard)))
    (position : (u.servers i).position ≤ sv.position) : Wf (u.setServer i sv) := by
  refine wf.quiet (i := i) ?_ ?_ takes.proposals takes.accepts ?_ (fun j => ?_) ?_
  · intro j other
    rw [State.setServer_ne other, takes.others j other]
  · rw [State.setServer_self, ← takes.position]
    exact position
  · rw [State.setServer_self]
    exact server
  · exact ⟨[], takes.bag_kept kept j, List.Pairwise.nil, fun _ h => nomatch h⟩
  · intro m member
    exact .inl (takes.mail ▸ member)

omit [NeZero n] in
theorem take_cases (v : Server n) (mt : MessageType) (p : Packet n) :
    (p.message.type = .decide ∧ v.take mt p = ({ v with color := p.message.color, decided := true }, none)) ∨
    (∃ stash, v.take mt p = ({ v with stash }, none) ∧ stash.Subperm (p :: v.stash)) ∨
    (p.message.type = mt ∧ p.message.round = v.round ∧
      v.take mt p = ({ v with heard := v.heard ++ [p] }, some p.message)) := by
  unfold Server.take
  by_cases decide : p.message.type = .decide
  · exact .inl ⟨decide, by simp [decide]⟩
  · by_cases other : p.message.type ≠ mt ∨ p.message.round ≠ v.round
    · refine .inr (.inl ?_)
      simp only [if_neg decide, if_pos other]
      split
      · exact ⟨_, rfl, List.perm_append_comm.subperm⟩
      · exact ⟨_, rfl, (List.sublist_cons_self p _).subperm⟩
    · refine .inr (.inr ?_)
      simp only [if_neg decide, if_neg other]
      simp only [not_or, not_not] at other
      exact ⟨other.1, other.2, trivial⟩

/-- A decision is taken over. -/
theorem Takes.decides (takes : Takes s u i p) (wf : Wf s) (decide : p.message.type = .decide)
    (going : (u.servers i).pc.rank < 6) :
    Wf (u.setServer i ({ u.servers i with color := p.message.color, decided := true }.goto (.decide none))) := by
  have ok := takes.ok wf
  have chosen := takes.message wf
  unfold MessageOk at chosen
  simp only [decide] at chosen
  apply takes.quiet wf
  · exact ⟨ok.positive, ok.earlier, fun low => by simp [Server.goto, Pc.rank] at low, nofun, ok.accepts,
      fun _ => chosen, by simp [Server.goto, Pc.rank], trivial⟩
  · simp only [Server.goto, List.append_nil]
    exact ((List.sublist_append_left _ _).cons p).subperm
  · change (u.servers i).position ≤ 8 * (u.servers i).round + 6
    unfold Server.position
    omega

/-- A message is put off or ignored, and `receive` goes on. -/
theorem Takes.ignores (takes : Takes s u i p) (wf : Wf s) {stash : List (Packet n)}
    (sub : stash.Subperm (p :: (u.servers i).stash)) (going : (u.servers i).pc.rank < 6)
    (rank : pc.rank = (u.servers i).pc.rank)
    (phase : PhaseOk s i (u.servers i) → PhaseOk s i { u.servers i with stash, pc }) :
    Wf (u.setServer i (Server.resume { u.servers i with stash } pc)) := by
  have ok := takes.ok wf
  have free := ok.going going
  have same : Server.resume { u.servers i with stash } pc = { u.servers i with stash, pc } := by
    simp [Server.resume, free]
  rw [same]
  apply takes.quiet wf
  · exact ⟨ok.positive, ok.earlier, fun low => ok.before (rank ▸ low), ok.colored, ok.accepts, ok.decided,
      rank ▸ ok.ended, phase ok.phase⟩
  · exact sub.append (List.Subperm.refl _)
  · simp only [Server.position, rank, Nat.le_refl]

omit [NeZero n] in
/-- What a quorum of distinct senders is. -/
theorem majority_of_apart {l : List (Packet n)} {type : MessageType} {r : Nat} (apart : l.Pairwise Apart)
    (kind : type = .prepare ∨ type = .ack) (same : ∀ p ∈ l, p.message.type = type ∧ p.message.round = r)
    (many : n / 2 < l.length) : Majority (l.map Packet.source).toFinset := by
  apply majority_of_nodup
  · rw [List.Nodup, List.pairwise_map]
    refine List.Pairwise.imp_of_mem ?_ apart
    intro p q left right distinct
    obtain ⟨type', round⟩ := same p left
    obtain ⟨type'', round'⟩ := same q right
    exact distinct (type'.trans type''.symm) (type' ▸ kind) (round.trans round'.symm)
  · simpa using many

omit [NeZero n] in
theorem mem_sources {l : List (Packet n)} (member : j ∈ (l.map Packet.source).toFinset) :
    ∃ p ∈ l, p.source = j := List.mem_map.mp (List.mem_toFinset.mp member)

/-! Phase 2. -/

/-- A PREPARE of the round is counted, and its color taken if it is later. -/
def Server.adopt (v : Server n) (p : Packet n) : Server n :=
  let v := { v with heard := v.heard ++ [p] }
  if v.colorRound < p.message.colorRound then
    { v with color := p.message.color, colorRound := p.message.colorRound } else v

omit [NeZero n] in
theorem prepared_adopt (v : Server n) (received : Nat) (p : Packet n) :
    Server.prepared { v with heard := v.heard ++ [p] } received p.message =
      if received + 1 ≤ n / 2 then { v.adopt p with pc := .collect (received + 1) (v.adopt p).stash.length }
      else (v.adopt p).goto (.propose 0) := rfl

/-- What is kept of a server that has taken a color. -/
structure Adopts (s : State n) (i : Fin n) (v w : Server n) (p : Packet n) : Prop where
  round : w.round = v.round
  before : w.colorRound < w.round
  source : 0 < w.colorRound → (w.colorRound, w.color) ∈ s.proposals
  accepts : ∀ r x, (i, r, x) ∈ s.accepts → r ≤ w.colorRound
  latest : v.colorRound ≤ w.colorRound ∧ p.message.colorRound ≤ w.colorRound
  heard : w.heard = v.heard ++ [p]
  stash : w.stash = v.stash
  decided : w.decided = v.decided

theorem adopts {v : Server n} (ok : ServerOk s i v) (early : v.pc.rank ≤ 3) (message : MessageOk s p)
    (type : p.message.type = .prepare) (round : p.message.round = v.round) : Adopts s i v (v.adopt p) p := by
  unfold MessageOk at message
  simp only [type] at message
  obtain ⟨_, before, source, _⟩ := message
  unfold Server.adopt
  by_cases later : v.colorRound < p.message.colorRound
  · simp only [if_pos later]
    exact ⟨rfl, round ▸ before, source, fun r x accepted => (ok.accepts r x accepted).trans later.le,
      ⟨later.le, Nat.le_refl _⟩, rfl, rfl, rfl⟩
  · simp only [if_neg later]
    exact ⟨rfl, ok.before early, ok.colored (ok.going (by omega)), ok.accepts,
      ⟨Nat.le_refl _, Nat.le_of_not_lt later⟩, rfl, rfl, rfl⟩

theorem Takes.collects (takes : Takes s u i p) (wf : Wf s) {received : Nat}
    (phase : (u.servers i).pc = .collect received left) (type : p.message.type = .prepare)
    (round : p.message.round = (u.servers i).round) (few : received + 1 ≤ n / 2) :
    Wf (u.setServer i { (u.servers i).adopt p with
      pc := .collect (received + 1) ((u.servers i).adopt p).stash.length }) := by
  have ok := takes.ok wf
  have adopted := adopts ok (by simp [phase, Pc.rank]) (takes.message wf) type round
  have counted := ok.phase
  simp only [PhaseOk, phase] at counted
  obtain ⟨leads, length, _, same⟩ := counted
  have going := ok.going (by simp [phase, Pc.rank])
  apply takes.quiet wf
  · refine ⟨adopted.round ▸ ok.positive, adopted.before.le, fun _ => adopted.before, fun _ => adopted.source,
      adopted.accepts, ?_, ?_, ?_⟩
    · simp [adopted.decided, going]
    · simp [adopted.decided, going, Pc.rank]
    · refine ⟨adopted.round ▸ leads, ?_, few, ?_⟩
      · simp only [adopted.heard, List.length_append, List.length_singleton, length]
      · intro q member
        simp only [adopted.heard] at member
        rcases List.mem_append.mp member with old | new
        · obtain ⟨type', round', bound⟩ := same q old
          exact ⟨type', round'.trans adopted.round.symm, bound.trans adopted.latest.1⟩
        · rw [List.mem_singleton.mp new]
          exact ⟨type, round.trans adopted.round.symm, adopted.latest.2⟩
  · simp only [adopted.heard, adopted.stash, ← List.append_assoc]
    exact List.perm_append_comm.subperm
  · simp only [Server.position, adopted.round, phase, Pc.rank, Nat.le_refl]

omit [NeZero n] in
theorem Takes.moves (takes : Takes s u i p) (sv : Server n) (position : (u.servers i).position ≤ sv.position)
    (servers : t.servers = (u.setServer i sv).servers) (proposals : s.proposals ⊆ t.proposals)
    (accepts : s.accepts ⊆ t.accepts)
    (fresh : ∀ j r x, (j, r, x) ∈ t.accepts → (j, r, x) ∈ s.accepts ∨ j = i ∧ r = (s.servers i).round) :
    Moves s t i := by
  refine ⟨fun j other => ?_, ?_, proposals, accepts, fresh⟩
  · rw [servers, State.setServer_ne other, takes.others j other]
  · rw [servers, State.setServer_self, ← takes.position]
    exact position

omit [NeZero n] in
/-- The messages of a step that takes one and casts a vote. -/
theorem Takes.bag_votes (takes : Takes s u i p) (servers : t.servers = (u.setServer i sv).servers)
    (inbox : t.inbox = u.inbox)
    (kept : (sv.stash ++ sv.heard).Subperm (p :: ((u.servers i).stash ++ (u.servers i).heard))) (j : Fin n) :
    (t.bag j).Subperm (s.bag j) := by
  have same : t.bag j = (u.setServer i sv).bag j := by
    simp only [State.bag, servers, inbox, State.setServer_inbox]
  rw [same]
  exact takes.bag_kept kept j

theorem Takes.proposes (takes : Takes s u i p) (wf : Wf s) {received : Nat}
    (phase : (u.servers i).pc = .collect received left) (type : p.message.type = .prepare)
    (round : p.message.round = (u.servers i).round) (many : n / 2 < received + 1) :
    let w := (u.servers i).adopt p
    Wf { u.setServer i (w.goto (.propose 0)) with proposals := (w.round, w.color) :: u.proposals } := by
  intro w
  have ok := takes.ok wf
  have adopted : Adopts s i (u.servers i) w p :=
    adopts ok (by simp [phase, Pc.rank]) (takes.message wf) type round
  have counted := ok.phase
  simp only [PhaseOk, phase] at counted
  obtain ⟨leads, length, _, same⟩ := counted
  have going := ok.going (by simp [phase, Pc.rank])
  have place : (u.servers i).position = 8 * w.round + 1 := by
    simp only [Server.position, phase, Pc.rank, adopted.round]
  have heard : ∀ q ∈ w.heard, q ∈ s.bag i ∧ q.message.type = .prepare ∧ q.message.round = w.round ∧
      q.message.colorRound ≤ w.colorRound := by
    intro q member
    rw [adopted.heard] at member
    rcases List.mem_append.mp member with old | new
    · obtain ⟨type', round', bound⟩ := same q old
      refine ⟨takes.bag.subset (List.mem_cons_of_mem _ ?_), type', round'.trans adopted.round.symm,
        bound.trans adopted.latest.1⟩
      simp only [State.bag, List.mem_append]
      exact .inr old
    · rw [List.mem_singleton.mp new]
      exact ⟨takes.bag.subset List.mem_cons_self, type, round.trans adopted.round.symm, adopted.latest.2⟩
  -- the round is new: its leader has not left this phase
  have fresh : ∀ y, (w.round, y) ∉ s.proposals := by
    intro y proposed
    have passed := wf.known w.round y proposed
    rw [adopted.round, ← leads, ← takes.position] at passed
    rw [adopted.round] at place
    omega
  have moves : Moves s { u.setServer i (w.goto (.propose 0)) with
      proposals := (w.round, w.color) :: u.proposals } i := by
    apply takes.moves (w.goto (.propose 0))
    · rw [place]
      simp [Server.position, Server.goto, Pc.rank]
    · rfl
    · simp only [takes.proposals]
      exact List.subset_cons_self _ _
    · simp only [State.setServer_accepts, takes.accepts]
      exact List.Subset.refl _
    · intro j r x accepted
      rw [← takes.accepts]
      exact .inl accepted
  have sub : w.heard.Subperm (s.bag i) := by
    refine List.Subperm.trans ?_ takes.bag
    rw [adopted.heard]
    refine List.Subperm.trans List.perm_append_comm.subperm ?_
    exact ((List.sublist_append_right _ _).cons_cons p).subperm
  have quiet : s.votes.Quiet (w.heard.map Packet.source).toFinset w.colorRound w.round := by
    intro j counted
    obtain ⟨q, member, rfl⟩ := mem_sources counted
    obtain ⟨inside, type', round', bound⟩ := heard q member
    have message := wf.messages i q inside
    unfold MessageOk at message
    simp only [type', round'] at message
    obtain ⟨sent, _, _, silent⟩ := message
    refine ⟨?_, fun r x accepted earlier => (silent r x accepted earlier).trans bound⟩
    have rank := (s.servers q.source).pc.rank_le
    simp only [State.votes, Server.position] at sent ⊢
    omega
  have backed : s.votes.Backed w.round w.color := by
    refine ⟨_, w.colorRound, ?_, adopted.before, adopted.source, quiet⟩
    apply majority_of_apart (pairwise_apart_of_subperm sub (wf.apart i)) (.inl rfl)
    · exact fun q member => ⟨(heard q member).2.1, (heard q member).2.2.1⟩
    · simpa [adopted.heard, ← length] using many
  apply wf.moved moves
  · simp only [State.setServer_self]
    refine ⟨adopted.round ▸ ok.positive, adopted.before.le, fun _ => adopted.before, ?_, ?_, ?_, ?_, ?_⟩
    · exact fun _ positive => moves.proposals (adopted.source positive)
    · simp only [State.setServer_accepts, takes.accepts]
      exact adopted.accepts
    · simp [Server.goto, adopted.decided, going]
    · simp [Server.goto, Pc.rank, adopted.decided, going]
    · exact ⟨adopted.round ▸ leads, List.mem_cons_self⟩
  · intro j q member
    refine .inl ((takes.bag_votes rfl rfl ?_ j).subset member)
    simp only [Server.goto, List.append_nil, adopted.stash]
    exact ((List.sublist_append_left _ _).cons p).subperm
  · intro j
    refine pairwise_apart_of_subperm (takes.bag_votes rfl rfl ?_ j) (wf.apart j)
    simp only [Server.goto, List.append_nil, adopted.stash]
    exact ((List.sublist_append_left _ _).cons p).subperm
  · refine wf.votes.step moves.grows (fun r x proposed => ?_) (fun j r x accepted => .inl ?_)
    · rcases List.mem_cons.mp proposed with new | old
      · cases new
        refine .inr ⟨fun y other => ?_, moves.grows.backed backed⟩
        rcases List.mem_cons.mp other with same | old
        · exact (Prod.mk.inj same).2
        · exact absurd (takes.proposals ▸ old) (fresh y)
      · exact .inl (show (r, x) ∈ s.proposals from takes.proposals ▸ old)
    · exact (show (j, r, x) ∈ s.accepts from takes.accepts ▸ accepted)
  · intro r x proposed
    rcases List.mem_cons.mp proposed with new | old
    · cases new
      refine .inr ?_
      rw [adopted.round, ← leads]
      simp [Server.position, Server.goto, Pc.rank, adopted.round]
    · exact .inl (takes.proposals ▸ old)
  · intro m member
    exact .inl (takes.mail ▸ member)

/-! Phase 4. -/

theorem Takes.accepts_vote (takes : Takes s u i p) (wf : Wf s) (phase : (u.servers i).pc = .wait left)
    (type : p.message.type = .propose) (round : p.message.round = (u.servers i).round) :
    let w := Server.proposed { u.servers i with heard := (u.servers i).heard ++ [p] } p.message
    Wf { u.setServer i w with accepts := (i, w.round, w.color) :: u.accepts } := by
  intro w
  have ok := takes.ok wf
  have going := ok.going (by simp [phase, Pc.rank])
  have here : (s.servers i).round = w.round := by
    obtain ⟨stash, same⟩ := takes.server
    simp only [w, Server.proposed, Server.goto, same]
  have proposed : (w.round, w.color) ∈ s.proposals := by
    have message := takes.message wf
    unfold MessageOk at message
    simp only [type, round] at message
    exact message
  have moves : Moves s { u.setServer i w with accepts := (i, w.round, w.color) :: u.accepts } i := by
    apply takes.moves w
    · simp [Server.position, w, Server.proposed, Server.goto, phase, Pc.rank]
    · rfl
    · simp only [State.setServer_proposals, takes.proposals]
      exact List.Subset.refl _
    · simp only [takes.accepts]
      exact List.subset_cons_self _ _
    · intro j r x accepted
      rcases List.mem_cons.mp accepted with new | old
      · cases new
        exact .inr ⟨rfl, here.symm⟩
      · exact .inl (takes.accepts ▸ old)
  have kept : (w.stash ++ w.heard).Subperm (p :: ((u.servers i).stash ++ (u.servers i).heard)) := by
    simp only [w, Server.proposed, Server.goto, List.append_nil]
    exact ((List.sublist_append_left _ _).cons p).subperm
  apply wf.moved moves
  · simp only [State.setServer_self]
    refine ⟨ok.positive, Nat.le_refl _, ?_, fun _ _ => moves.proposals proposed, ?_, ?_, ?_, ?_⟩
    · simp [w, Server.proposed, Server.goto, Pc.rank]
    · intro r x accepted
      rcases List.mem_cons.mp accepted with new | old
      · cases new
        exact Nat.le_refl _
      · exact (ok.accepts r x (takes.accepts ▸ old)).trans ok.earlier
    · simp [w, Server.proposed, Server.goto, going]
    · simp [w, Server.proposed, Server.goto, Pc.rank, going]
    · exact ⟨fun _ => moves.proposals proposed, fun _ => ⟨_, List.mem_cons_self⟩⟩
  · exact fun j q member => .inl ((takes.bag_votes rfl rfl kept j).subset member)
  · exact fun j => pairwise_apart_of_subperm (takes.bag_votes rfl rfl kept j) (wf.apart j)
  · refine wf.votes.step moves.grows (fun r x old => .inl ?_) (fun j r x accepted => ?_)
    · exact (show (r, x) ∈ s.proposals from takes.proposals ▸ old)
    · rcases List.mem_cons.mp accepted with new | old
      · cases new
        exact .inr ⟨ok.positive, moves.proposals proposed⟩
      · exact .inl (show (j, r, x) ∈ s.accepts from takes.accepts ▸ old)
  · intro r x old
    exact .inl (takes.proposals ▸ old)
  · intro m member
    exact .inl (takes.mail ▸ member)

/-! Phase 5. -/

theorem Takes.counts (takes : Takes s u i p) (wf : Wf s) {success total : Nat}
    (phase : (u.servers i).pc = .count success total left) (type : p.message.type = .ack)
    (round : p.message.round = (u.servers i).round) :
    Wf (u.setServer i (Server.acked { u.servers i with heard := (u.servers i).heard ++ [p] } success total
      p.message)) := by
  have ok := takes.ok wf
  have counted := ok.phase
  simp only [PhaseOk, phase] at counted
  obtain ⟨leads, proposed, successes, length, _, same⟩ := counted
  have going := ok.going (by simp [phase, Pc.rank])
  have heard : ∀ q ∈ (u.servers i).heard ++ [p],
      q ∈ s.bag i ∧ q.message.type = .ack ∧ q.message.round = (u.servers i).round := by
    intro q member
    rcases List.mem_append.mp member with old | new
    · refine ⟨takes.bag.subset (List.mem_cons_of_mem _ ?_), same q old⟩
      simp only [State.bag, List.mem_append]
      exact .inr old
    · rw [List.mem_singleton.mp new]
      exact ⟨takes.bag.subset List.mem_cons_self, type, round⟩
  have total' : total + 1 = ((u.servers i).heard ++ [p]).length := by
    simp [length]
  have success' : (if p.message.ack then success + 1 else success) =
      ((u.servers i).heard ++ [p]).countP (·.message.ack) := by
    rw [List.countP_append, ← successes, List.countP_singleton]
    split <;> rfl
  have dropped : (u.servers i).stash.Subperm (p :: ((u.servers i).stash ++ (u.servers i).heard)) :=
    ((List.sublist_append_left _ _).cons p).subperm
  unfold Server.acked
  simp only [success']
  split
  · apply takes.quiet wf
    · refine ⟨ok.positive, ok.earlier, fun low => ?_, ok.colored, ok.accepts, ok.decided, ?_, ?_⟩
      · simp [Pc.rank] at low
      · simp [Pc.rank, going]
      · exact ⟨leads, proposed, rfl, total', ‹_›, fun q member => (heard q member).2⟩
    · simp only [← List.append_assoc]
      exact List.perm_append_comm.subperm
    · simp [Server.position, phase, Pc.rank]
  · split
    · rename_i many
      have chosen : s.votes.Chosen (u.servers i).round (u.servers i).color := by
        have sub : (((u.servers i).heard ++ [p]).filter (·.message.ack)).Subperm (s.bag i) := by
          refine List.filter_sublist.subperm.trans (List.Subperm.trans ?_ takes.bag)
          refine List.Subperm.trans List.perm_append_comm.subperm ?_
          exact ((List.sublist_append_right _ _).cons_cons p).subperm
        refine ⟨_, majority_of_apart (r := (u.servers i).round)
          (pairwise_apart_of_subperm sub (wf.apart i)) (.inr rfl) ?_ ?_, ?_⟩
        · exact fun q member => (heard q (List.mem_of_mem_filter member)).2
        · rw [← List.countP_eq_length_filter]
          exact many
        · intro j counted
          obtain ⟨q, filtered, rfl⟩ := mem_sources counted
          obtain ⟨member, acks⟩ := List.mem_filter.mp filtered
          obtain ⟨inside, type', round'⟩ := heard q member
          have message := wf.messages i q inside
          unfold MessageOk at message
          simp only [type', round'] at message
          obtain ⟨x, accepted⟩ := message.2 acks
          have same := wf.votes.one _ _ _ (wf.votes.accepts _ _ _ accepted).2 proposed
          exact same ▸ accepted
      apply takes.quiet wf
      · refine ⟨ok.positive, ok.earlier, fun low => ?_, by rintro ⟨⟩, ok.accepts, fun _ => ⟨_, chosen⟩, ?_, trivial⟩
        · simp [Server.goto, Pc.rank] at low
        · simp [Server.goto, Pc.rank]
      · simpa only [Server.goto, List.append_nil] using dropped
      · simp [Server.position, Server.goto, phase, Pc.rank]
    · apply takes.quiet wf
      · exact ok.advance going
      · simpa only [Server.goto, List.append_nil] using dropped
      · simp only [Server.position, Server.goto, phase, Pc.rank]
        omega

theorem receive_wf (wf : Wf s) (received : s.receive i k = some t) : Wf t := by
  unfold State.receive at received
  cases phase : (s.servers i).pc with
  | collect count left =>
      simp only [phase] at received
      obtain ⟨⟨p, u⟩, next, rfl⟩ := Option.map_eq_some_iff.mp received
      have takes := next_takes next
      have phase : (u.servers i).pc = .collect count left := by
        obtain ⟨stash, same⟩ := takes.server
        rw [same, ← phase]
      rcases take_cases (u.servers i) .prepare p with ⟨decide, taken⟩ | ⟨stash, taken, sub⟩ | ⟨type, round, taken⟩
      · simp only [taken, Server.resume, if_true]
        exact takes.decides wf decide (by simp [phase, Pc.rank])
      · simp only [taken]
        apply takes.ignores wf sub
        · simp [phase, Pc.rank]
        · simp [phase, Pc.rank]
        · simp only [PhaseOk, phase, imp_self]
      · simp only [taken, prepared_adopt]
        by_cases few : count + 1 ≤ n / 2
        · simp only [if_pos few, reduceCtorEq, if_false]
          exact takes.collects wf phase type round few
        · simp only [if_neg few, Server.goto, if_true]
          exact takes.proposes wf phase type round (Nat.lt_of_not_le few)
  | wait left =>
      simp only [phase] at received
      obtain ⟨⟨p, u⟩, next, rfl⟩ := Option.map_eq_some_iff.mp received
      have takes := next_takes next
      have phase : (u.servers i).pc = .wait left := by
        obtain ⟨stash, same⟩ := takes.server
        rw [same, ← phase]
      rcases take_cases (u.servers i) .propose p with ⟨decide, taken⟩ | ⟨stash, taken, sub⟩ | ⟨type, round, taken⟩
      · simp only [taken, Server.resume, if_true]
        exact takes.decides wf decide (by simp [phase, Pc.rank])
      · simp only [taken]
        apply takes.ignores wf sub
        · simp [phase, Pc.rank]
        · simp [phase, Pc.rank]
        · simp only [PhaseOk, phase, imp_self]
      · simp only [taken]
        exact takes.accepts_vote wf phase type round
  | count success total left =>
      simp only [phase] at received
      obtain ⟨⟨p, u⟩, next, rfl⟩ := Option.map_eq_some_iff.mp received
      have takes := next_takes next
      have phase : (u.servers i).pc = .count success total left := by
        obtain ⟨stash, same⟩ := takes.server
        rw [same, ← phase]
      rcases take_cases (u.servers i) .ack p with ⟨decide, taken⟩ | ⟨stash, taken, sub⟩ | ⟨type, round, taken⟩
      · simp only [taken, Server.resume, if_true]
        exact takes.decides wf decide (by simp [phase, Pc.rank])
      · simp only [taken]
        apply takes.ignores wf sub
        · simp [phase, Pc.rank]
        · simp [phase, Pc.rank]
        · simp only [PhaseOk, phase, imp_self]
      · simp only [taken]
        exact takes.counts wf phase type round
  | prepare | propose | ack | decide | finished =>
      simp only [phase] at received
      cases received

/-! Runs. -/

variable {a : Action n} {colors : Fin n → Color} {ls ms : List (Action n)}

/-- Nancy's own steps leave the servers alone. -/
theorem Wf.hear (wf : Wf s) (servers : t.servers = s.servers) (inbox : t.inbox = s.inbox)
    (proposals : t.proposals = s.proposals) (accepts : t.accepts = s.accepts)
    (mail : ∀ m ∈ t.mail, m ∈ s.mail) : Wf t := by
  refine wf.quiet (i := 0) (fun j _ => by rw [servers]) (by rw [servers]) proposals accepts ?_ (fun j => ?_)
    (fun m member => .inl (mail m member))
  · rw [servers]
    exact wf.servers 0
  · have same : t.bag j = s.bag j := by simp only [State.bag, servers, inbox]
    exact ⟨[], by rw [same]; exact List.Subperm.refl _, List.Pairwise.nil, fun _ h => nomatch h⟩

theorem step_wf (wf : Wf s) (moved : s.step a = some t) : Wf t := by
  obtain ⟨_, moved⟩ := Option.ite_none_left_eq_some.mp moved
  cases a with
  | send i => exact send_wf wf moved
  | receive i k => exact receive_wf wf moved
  | suspect i => exact suspect_wf wf moved
  | nancy k =>
      obtain ⟨m, _, rfl⟩ := Option.map_eq_some_iff.mp moved
      exact wf.hear rfl rfl rfl rfl fun m member => List.mem_of_mem_eraseIdx member
  | stop =>
      obtain ⟨_, moved⟩ := Option.ite_none_right_eq_some.mp moved
      cases Option.some.inj moved
      exact wf.hear rfl rfl rfl rfl fun m member => member

theorem start_wf (colors : Fin n → Color) : Wf (State.start colors) where
  servers i := ⟨Nat.one_pos, Nat.zero_le _, fun _ => Nat.one_pos, fun _ h => absurd h (Nat.lt_irrefl 0),
    fun _ _ h => (nomatch h), nofun, by simp [State.start, Pc.rank], trivial⟩
  messages _ _ h := nomatch h
  apart _ := List.Pairwise.nil
  votes := ⟨fun _ _ _ h => (nomatch h), fun _ _ h => (nomatch h), fun _ _ _ h => (nomatch h)⟩
  known _ _ h := nomatch h
  mail _ h := nomatch h

theorem reached_wf (path : Reaches State.step (State.start colors) ls s) : Wf s :=
  path.invariant step_wf (start_wf colors)

theorem send_others (sent : s.send i = some t) (other : j ≠ i) : t.servers j = s.servers j := by
  unfold State.send at sent
  cases phase : (s.servers i).pc with
  | prepare | ack =>
      simp only [phase] at sent
      cases Option.some.inj sent
      exact State.setServer_ne other
  | propose next =>
      simp only [phase] at sent
      obtain ⟨small, sent⟩ := Option.dite_none_right_eq_some.mp sent
      cases Option.some.inj sent
      exact State.setServer_ne other
  | decide next =>
      cases next with
      | none =>
          simp only [phase] at sent
          cases Option.some.inj sent
          exact State.setServer_ne other
      | some next =>
          simp only [phase] at sent
          obtain ⟨small, sent⟩ := Option.dite_none_right_eq_some.mp sent
          cases Option.some.inj sent
          rw [State.setServer_ne other]
          split <;> rfl
  | collect | wait | count | finished =>
      simp only [phase] at sent
      cases sent

omit [NeZero n] in
theorem receive_others (received : s.receive i k = some t) (other : j ≠ i) : t.servers j = s.servers j := by
  unfold State.receive at received
  cases phase : (s.servers i).pc with
  | collect | wait | count =>
      simp only [phase] at received
      obtain ⟨⟨p, u⟩, next, rfl⟩ := Option.map_eq_some_iff.mp received
      have kept := (next_takes next).others j other
      dsimp only
      split
      · exact (State.setServer_ne other).trans kept
      · first
          | exact (State.setServer_ne other).trans kept
          | split <;> exact (State.setServer_ne other).trans kept
  | prepare | propose | ack | decide | finished =>
      simp only [phase] at received
      exact nomatch received

/-- What a server has decided it keeps. -/
theorem step_final (wf : Wf s) (moved : s.step a = some t) (decided : (s.servers i).decided = true) :
    (t.servers i).decided = true ∧ (t.servers i).color = (s.servers i).color := by
  have rank := (wf.servers i).ended.mpr decided
  obtain ⟨_, moved⟩ := Option.ite_none_left_eq_some.mp moved
  cases a with
  | send j =>
      by_cases other : i = j
      · subst other
        simp only [State.send] at moved
        cases phase : (s.servers i).pc with
        | decide next =>
            cases next with
            | none =>
                simp only [phase] at moved
                cases Option.some.inj moved
                rw [State.setServer_self]
                exact ⟨decided, rfl⟩
            | some next =>
                simp only [phase] at moved
                obtain ⟨_, moved⟩ := Option.dite_none_right_eq_some.mp moved
                cases Option.some.inj moved
                rw [State.setServer_self]
                exact ⟨decided, rfl⟩
        | finished =>
            simp only [phase] at moved
            cases moved
        | prepare | collect | propose | wait | ack | count => simp [phase, Pc.rank] at rank
      · rw [send_others moved other]
        exact ⟨decided, rfl⟩
  | receive j k =>
      by_cases other : i = j
      · subst other
        simp only [State.receive] at moved
        cases phase : (s.servers i).pc <;> simp [phase, Pc.rank] at moved rank
      · rw [receive_others moved other]
        exact ⟨decided, rfl⟩
  | suspect j =>
      obtain ⟨phase, moved⟩ := Option.ite_none_right_eq_some.mp moved
      cases Option.some.inj moved
      by_cases other : i = j
      · subst other
        simp [phase, Pc.rank] at rank
      · rw [State.setServer_ne other]
        exact ⟨decided, rfl⟩
  | nancy k =>
      obtain ⟨m, _, rfl⟩ := Option.map_eq_some_iff.mp moved
      exact ⟨decided, rfl⟩
  | stop =>
      obtain ⟨_, moved⟩ := Option.ite_none_right_eq_some.mp moved
      cases Option.some.inj moved
      exact ⟨decided, rfl⟩

theorem reached_final (path : Reaches State.step s ls t) (wf : Wf s) (decided : (s.servers i).decided = true) :
    (t.servers i).decided = true ∧ (t.servers i).color = (s.servers i).color := by
  induction path with
  | refl => exact ⟨decided, rfl⟩
  | next moved _ ih =>
      obtain ⟨still, same⟩ := step_final wf moved decided
      obtain ⟨final, same'⟩ := ih (step_wf wf moved) still
      exact ⟨final, same'.trans same⟩

/-- Servers that decide, at whatever times, decide on one color. -/
theorem servers_agree (path : Reaches State.step (State.start colors) ls s)
    (later : Reaches State.step s ms t) (first : (s.servers i).decided = true)
    (second : (t.servers j).decided = true) : (s.servers i).color = (t.servers j).color := by
  have wf := reached_wf path
  obtain ⟨still, same⟩ := reached_final later wf first
  have wf' := reached_wf (path.trans later)
  obtain ⟨_, left⟩ := (wf'.servers i).decided still
  obtain ⟨_, right⟩ := (wf'.servers j).decided second
  exact same.symm.trans (wf'.votes.agree left right)

theorem servers_agree_two : ∃ s t : State 2,
    Reaches State.step (State.start fun i => if i = 0 then "red" else "blue") [.send 0, .send 1, .receive 1 0,
      .receive 1 0, .send 1, .send 1, .receive 1 0, .receive 0 0, .send 0, .send 1, .receive 1 0,
      .receive 1 0] s ∧
    Reaches State.step s [.send 1, .send 1, .send 0, .receive 0 0] t ∧
    (s.servers 1).decided = true ∧ (t.servers 0).decided = true ∧
    (s.servers 1).color = (t.servers 0).color := by
  have ran : (run State.step (State.start fun i : Fin 2 => if i = 0 then "red" else "blue") [.send 0, .send 1,
      .receive 1 0, .receive 1 0, .send 1, .send 1, .receive 1 0, .receive 0 0, .send 0, .send 1, .receive 1 0,
      .receive 1 0]).any (fun s => (s.servers 1).decided &&
        (run State.step s [.send 1, .send 1, .send 0, .receive 0 0]).any
          fun t => (t.servers 0).decided) = true := by decide +kernel
  obtain ⟨s, first, rest⟩ := (Option.any_eq_true _ _).mp ran
  obtain ⟨left, rest⟩ := Bool.and_eq_true_iff.mp rest
  obtain ⟨t, second, right⟩ := (Option.any_eq_true _ _).mp rest
  have path := run_iff_reaches.mp first
  have later := run_iff_reaches.mp second
  exact ⟨s, t, path, later, left, right, servers_agree path later left right⟩

end Cotamer.Consensus
