import Cotamer.Consensus.Agreement

/-! Validity, and Nancy: she collects decisions and checks them, and finds nothing to
complain about. -/
namespace Cotamer.Consensus
open Ballots Transition

variable {n : Nat} {s t u : State n} {i j : Fin n} {p q : Packet n} {v sv : Server n} {m : Message}
  {k left : Nat} {P : Color → Prop} {mt : MessageType}

/-- All colors in servers and messages. -/
structure Colored (P : Color → Prop) (s : State n) : Prop where
  servers : ∀ i, P (s.servers i).color
  messages : ∀ i, ∀ p ∈ s.bag i, p.message.type ≠ .ack → P p.message.color
  mail : ∀ m ∈ s.mail, P m.color

/-- A server that has looked at a message has its old color or that of the message, and
no other message. -/
structure Looked (v : Server n) (p : Packet n) (sv : Server n) : Prop where
  color : sv.color = v.color ∨ p.message.type ≠ .ack ∧ sv.color = p.message.color
  messages : ∀ q ∈ sv.stash ++ sv.heard, q = p ∨ q ∈ v.stash ++ v.heard

theorem Looked.goto (looked : Looked v p sv) (pc : Pc) : Looked v p (sv.goto pc) := by
  refine ⟨looked.color, fun q member => ?_⟩
  simp only [Server.goto, List.append_nil] at member
  exact looked.messages q (List.mem_append_left _ member)

theorem Looked.resume (looked : Looked v p sv) (pc : Pc) : Looked v p (sv.resume pc) := by
  unfold Server.resume
  split
  · exact looked.goto _
  · exact ⟨looked.color, looked.messages⟩

theorem take_looked (v : Server n) (mt : MessageType) (p : Packet n) :
    (∃ sv, v.take mt p = (sv, none) ∧ Looked v p sv) ∨
    ∃ sv, v.take mt p = (sv, some p.message) ∧ p.message.type = mt ∧ Looked v p sv := by
  rcases take_cases v mt p with ⟨decide, taken⟩ | ⟨stash, taken, sub⟩ | ⟨type, _, taken⟩
  · exact .inl ⟨_, taken, .inr ⟨by simp [decide], rfl⟩, fun q member => .inr member⟩
  · refine .inl ⟨_, taken, .inl rfl, fun q member => ?_⟩
    rcases List.mem_append.mp member with old | heard
    · rcases List.mem_cons.mp (sub.subset old) with same | stashed
      · exact .inl same
      · exact .inr (List.mem_append_left _ stashed)
    · exact .inr (List.mem_append_right _ heard)
  · refine .inr ⟨_, taken, type, .inl rfl, fun q member => ?_⟩
    simp only [List.mem_append, List.mem_singleton] at member ⊢
    tauto

theorem prepared_looked (looked : Looked v p sv) (type : p.message.type ≠ .ack) (received : Nat) :
    Looked v p (sv.prepared received p.message) := by
  have adopted : Looked v p (if sv.colorRound < p.message.colorRound then
      { sv with color := p.message.color, colorRound := p.message.colorRound } else sv) := by
    split
    · exact ⟨.inr ⟨type, rfl⟩, looked.messages⟩
    · exact looked
  unfold Server.prepared
  dsimp only
  split
  · exact ⟨adopted.color, adopted.messages⟩
  · exact adopted.goto _

theorem proposed_looked (looked : Looked v p sv) (type : p.message.type ≠ .ack) :
    Looked v p (sv.proposed p.message) := by
  have taken : Looked v p { sv with color := p.message.color, colorRound := sv.round } :=
    ⟨.inr ⟨type, rfl⟩, looked.messages⟩
  exact taken.goto _

theorem acked_looked (looked : Looked v p sv) (success total : Nat) (m : Message) :
    Looked v p (sv.acked success total m) := by
  unfold Server.acked
  generalize (if m.ack then success + 1 else success) = success'
  dsimp only
  split
  · exact ⟨looked.color, looked.messages⟩
  · split
    · have decided : Looked v p { sv with decided := true } := ⟨looked.color, looked.messages⟩
      exact decided.goto _
    · have advanced : Looked v p { sv with round := sv.round + 1 } := ⟨looked.color, looked.messages⟩
      exact advanced.goto _

/-- What a round of `receive` leaves of the servers. -/
theorem receive_looked (received : s.receive i k = some t) : ∃ u p sv, Takes s u i p ∧
    Looked (u.servers i) p sv ∧ t.servers = (u.setServer i sv).servers ∧ t.inbox = u.inbox ∧
    t.mail = s.mail ∧ t.nancy = s.nancy ∧ s.accepts ⊆ t.accepts := by
  unfold State.receive at received
  cases phase : (s.servers i).pc with
  | collect count left =>
      simp only [phase] at received
      obtain ⟨⟨p, u⟩, next, rfl⟩ := Option.map_eq_some_iff.mp received
      have takes := next_takes next
      have same : s.accepts ⊆ u.accepts := takes.accepts ▸ List.Subset.refl _
      rcases take_looked (u.servers i) .prepare p with ⟨sv, taken, looked⟩ | ⟨sv, taken, type, looked⟩
      · simp only [taken]
        exact ⟨u, p, _, takes, looked.resume _, rfl, rfl, takes.mail, takes.nancy, same⟩
      · have prepared := prepared_looked looked (by simp [type]) count
        simp only [taken]
        split <;> exact ⟨u, p, _, takes, prepared, rfl, rfl, takes.mail, takes.nancy, same⟩
  | wait left =>
      simp only [phase] at received
      obtain ⟨⟨p, u⟩, next, rfl⟩ := Option.map_eq_some_iff.mp received
      have takes := next_takes next
      have same : s.accepts ⊆ u.accepts := takes.accepts ▸ List.Subset.refl _
      rcases take_looked (u.servers i) .propose p with ⟨sv, taken, looked⟩ | ⟨sv, taken, type, looked⟩
      · simp only [taken]
        exact ⟨u, p, _, takes, looked.resume _, rfl, rfl, takes.mail, takes.nancy, same⟩
      · have proposed := proposed_looked looked (by simp [type])
        simp only [taken]
        exact ⟨u, p, _, takes, proposed, rfl, rfl, takes.mail, takes.nancy,
          List.Subset.trans same (List.subset_cons_self _ _)⟩
  | count success total left =>
      simp only [phase] at received
      obtain ⟨⟨p, u⟩, next, rfl⟩ := Option.map_eq_some_iff.mp received
      have takes := next_takes next
      have same : s.accepts ⊆ u.accepts := takes.accepts ▸ List.Subset.refl _
      rcases take_looked (u.servers i) .ack p with ⟨sv, taken, looked⟩ | ⟨sv, taken, type, looked⟩
      · simp only [taken]
        exact ⟨u, p, _, takes, looked.resume _, rfl, rfl, takes.mail, takes.nancy, same⟩
      · have acked := acked_looked looked success total p.message
        simp only [taken]
        exact ⟨u, p, _, takes, acked, rfl, rfl, takes.mail, takes.nancy, same⟩
  | prepare | propose | ack | decide | finished =>
      simp only [phase] at received
      exact nomatch received

/-- What a send leaves of the servers: the message has the server's color. -/
structure Sends (s t : State n) (i : Fin n) : Prop where
  colors : ∀ j, (t.servers j).color = (s.servers j).color
  messages : ∀ j, ∀ p ∈ t.bag j, p ∈ s.bag j ∨ p.message.type = .ack ∨
    p.message.color = (s.servers i).color
  mail : ∀ m ∈ t.mail, m ∈ s.mail ∨ m.color = (s.servers i).color
  nancy : t.nancy = s.nancy
  accepts : t.accepts = s.accepts

theorem setServer_colors (color : sv.color = (s.servers i).color) (j : Fin n) :
    ((s.setServer i sv).servers j).color = (s.servers j).color := by
  by_cases here : j = i
  · subst here
    rw [State.setServer_self, color]
  · rw [State.setServer_ne here]

theorem post_sends (color : sv.color = (s.servers i).color) (stash : sv.stash = (s.servers i).stash)
    (heard : sv.heard = []) (carries : m.type = .ack ∨ m.color = (s.servers i).color) :
    Sends s ((s.post i j m).setServer i sv) i where
  colors := setServer_colors (s := s.post i j m) color
  messages k p member := by
    rcases List.mem_append.mp ((bag_sent stash heard k).subset member) with new | old
    · split at new
      · rw [List.mem_singleton.mp new]
        exact .inr carries
      · exact nomatch new
    · exact .inl old
  mail _ old := .inl old
  nancy := rfl
  accepts := rfl

theorem kept_sends (color : sv.color = (s.servers i).color) (stash : sv.stash = (s.servers i).stash)
    (heard : sv.heard = []) : Sends s (s.setServer i sv) i where
  colors := setServer_colors color
  messages k _ member := .inl ((bag_kept stash heard k).subset member)
  mail _ old := .inl old
  nancy := rfl
  accepts := rfl

theorem suspect_sends (s : State n) (i : Fin n) :
    Sends s (s.setServer i ((s.servers i).goto (.ack false))) i := by
  apply kept_sends
  · rfl
  · rfl
  · rfl

theorem send_sends [NeZero n] (sent : s.send i = some t) : Sends s t i := by
  unfold State.send at sent
  cases phase : (s.servers i).pc with
  | prepare =>
      simp only [phase] at sent
      cases Option.some.inj sent
      exact post_sends rfl rfl rfl (.inr rfl)
  | propose next =>
      simp only [phase] at sent
      obtain ⟨small, sent⟩ := Option.dite_none_right_eq_some.mp sent
      cases Option.some.inj sent
      exact post_sends rfl rfl rfl (.inr rfl)
  | ack proposed =>
      simp only [phase] at sent
      cases Option.some.inj sent
      apply post_sends
      · split <;> rfl
      · split <;> rfl
      · split <;> rfl
      · exact .inl rfl
  | decide next =>
      cases next with
      | none =>
          simp only [phase] at sent
          cases Option.some.inj sent
          have kept : Sends s (s.setServer i ((s.servers i).goto (.decide (some 0)))) i := by
            apply kept_sends
            · rfl
            · rfl
            · rfl
          refine ⟨kept.colors, kept.messages, fun m member => ?_, rfl, rfl⟩
          rcases List.mem_append.mp member with old | new
          · exact .inl old
          · rw [List.mem_singleton.mp new]
            exact .inr rfl
      | some next =>
          simp only [phase] at sent
          obtain ⟨small, sent⟩ := Option.dite_none_right_eq_some.mp sent
          cases Option.some.inj sent
          split
          · exact kept_sends rfl rfl rfl
          · exact post_sends rfl rfl rfl (.inr rfl)
  | collect | wait | count | finished =>
      simp only [phase] at sent
      cases sent

theorem Sends.colored (sends : Sends s t i) (colored : Colored P s) : Colored P t := by
  constructor
  · intro j
    rw [sends.colors]
    exact colored.servers j
  · intro j p member type
    rcases sends.messages j p member with old | ack | own
    · exact colored.messages j p old type
    · exact absurd ack type
    · exact own ▸ colored.servers i
  · intro m member
    rcases sends.mail m member with old | own
    · exact colored.mail m old
    · exact own ▸ colored.servers i

variable {a : Action n} {colors : Fin n → Color} {ls : List (Action n)}

theorem Takes.colored (takes : Takes s u i p) (colored : Colored P s) (looked : Looked (u.servers i) p sv)
    (servers : t.servers = (u.setServer i sv).servers) (inbox : t.inbox = u.inbox) (mail : t.mail = s.mail) :
    Colored P t := by
  have inside : ∀ q, q ∈ p :: u.bag i → q ∈ s.bag i := fun q => (takes.bag.subset ·)
  constructor
  · intro j
    rw [servers]
    by_cases here : j = i
    · subst here
      rw [State.setServer_self]
      rcases looked.color with same | ⟨type, same⟩
      · obtain ⟨stash, old⟩ := takes.server
        rw [same, old]
        exact colored.servers j
      · rw [same]
        exact colored.messages j p (inside p List.mem_cons_self) type
    · rw [State.setServer_ne here, takes.others j here]
      exact colored.servers j
  · intro j q member
    simp only [State.bag, servers, inbox] at member
    by_cases here : j = i
    · subst here
      rw [State.setServer_self, List.append_assoc] at member
      refine colored.messages j q (inside q ?_)
      rcases List.mem_append.mp member with old | old
      · exact List.mem_cons_of_mem _ (by simp [State.bag, old])
      · rcases looked.messages q old with same | old
        · exact same ▸ List.mem_cons_self
        · exact List.mem_cons_of_mem _ (by
            simp only [State.bag, List.append_assoc]
            exact List.mem_append_right _ old)
    · rw [State.setServer_ne here] at member
      apply colored.messages j q
      rw [← takes.bags j here]
      exact member
  · rw [mail]
    exact colored.mail

theorem start_colored (all : ∀ i, P (colors i)) : Colored P (State.start colors) where
  servers := all
  messages _ _ h := nomatch h
  mail _ h := nomatch h

variable [NeZero n]

theorem step_colored (colored : Colored P s) (moved : s.step a = some t) : Colored P t := by
  obtain ⟨_, moved⟩ := Option.ite_none_left_eq_some.mp moved
  cases a with
  | send i =>
      exact (send_sends moved).colored colored
  | receive i k =>
      obtain ⟨u, p, sv, takes, looked, servers, inbox, mail, _⟩ := receive_looked moved
      exact takes.colored colored looked servers inbox mail
  | suspect i =>
      obtain ⟨_, moved⟩ := Option.ite_none_right_eq_some.mp moved
      cases Option.some.inj moved
      exact (suspect_sends s i).colored colored
  | nancy k =>
      obtain ⟨m, _, rfl⟩ := Option.map_eq_some_iff.mp moved
      exact ⟨colored.servers, colored.messages, fun m member => colored.mail m (List.mem_of_mem_eraseIdx member)⟩
  | stop =>
      obtain ⟨_, moved⟩ := Option.ite_none_right_eq_some.mp moved
      cases Option.some.inj moved
      exact ⟨colored.servers, colored.messages, colored.mail⟩

theorem reached_colored (path : Reaches State.step (State.start colors) ls s) (all : ∀ i, P (colors i)) :
    Colored P s :=
  path.invariant step_colored (start_colored all)

/-- Every server's color is one of the initial ones, also when it decides. -/
theorem colors_initial (path : Reaches State.step (State.start colors) ls s) (i : Fin n) :
    ∃ j, (s.servers i).color = colors j :=
  (reached_colored (P := fun c => ∃ j, c = colors j) path fun j => ⟨j, rfl⟩).servers i

theorem colors_initial_two : ∃ s : State 2, (s.servers 0).decided = true ∧
    ∃ j : Fin 2, (s.servers 0).color = (fun i => if i = 0 then "red" else "blue") j := by
  have ran : (run State.step (State.start fun i : Fin 2 => if i = 0 then "red" else "blue") [.send 0, .send 1,
      .receive 1 0, .receive 1 0, .send 1, .send 1, .receive 1 0, .receive 0 0, .send 0, .send 1, .receive 1 0,
      .receive 1 0, .send 1, .send 1, .send 0, .receive 0 0]).any
      (fun s => (s.servers 0).decided) = true := by decide +kernel
  obtain ⟨s, path, decided⟩ := (Option.any_eq_true _ _).mp ran
  exact ⟨s, decided, colors_initial (run_iff_reaches.mp path) 0⟩

/-! Nancy. -/

omit [NeZero n] in
theorem chosen_mono (accepts : s.accepts ⊆ t.accepts) {r : Nat} {x : Color} (chosen : s.votes.Chosen r x) :
    t.votes.Chosen r x := by
  obtain ⟨q, majority, accepted⟩ := chosen
  exact ⟨q, majority, fun i member => accepts (accepted i member)⟩

theorem foldl_required (rest : List Color) (c : Color)
    (some : rest.foldl (fun required color => if required ≠ color then "" else required) c ≠ "") :
    rest.foldl (fun required color => if required ≠ color then "" else required) c = c ∧ ∀ d ∈ rest, d = c := by
  induction rest generalizing c with
  | nil => exact ⟨rfl, fun _ h => nomatch h⟩
  | cons d rest ih =>
      rw [List.foldl_cons] at some ⊢
      by_cases same : c = d
      · subst same
        simp only [ne_eq, not_true_eq_false, if_false] at some ⊢
        obtain ⟨result, all⟩ := ih c some
        refine ⟨result, fun e member => ?_⟩
        rcases List.mem_cons.mp member with rfl | later
        · rfl
        · exact all e later
      · simp only [ne_eq, same, not_false_eq_true, if_true] at some
        have empty := (ih "" some).1
        exact absurd empty some

theorem eq_required {cs : List Color} (some : State.required cs ≠ "") {c : Color} (member : c ∈ cs) :
    c = State.required cs := by
  cases cs with
  | nil => exact nomatch member
  | cons d rest =>
      obtain ⟨result, all⟩ := foldl_required rest d some
      rw [State.required, result]
      rcases List.mem_cons.mp member with rfl | later
      · rfl
      · exact all c later

structure NancyOk (colors : Fin n → Color) (s : State n) : Prop where
  complaint : s.nancy.complaint = none
  required : s.nancy.required = State.required (List.ofFn colors)
  consensus : s.nancy.consensus ≠ "" → ∃ r, s.votes.Chosen r s.nancy.consensus
  stopper : s.nancy.stopper = true → n / 2 < s.nancy.received

omit [NeZero n] in
theorem NancyOk.servers_move (ok : NancyOk colors s) (nancy : t.nancy = s.nancy) (accepts : s.accepts ⊆ t.accepts) :
    NancyOk colors t where
  complaint := nancy ▸ ok.complaint
  required := nancy ▸ ok.required
  consensus some := by
    rw [nancy] at some ⊢
    obtain ⟨r, chosen⟩ := ok.consensus some
    exact ⟨r, chosen_mono accepts chosen⟩
  stopper := nancy ▸ ok.stopper

theorem NancyOk.hears (ok : NancyOk colors s) (wf : Wf s) (member : m ∈ s.mail)
    (two : m.color = "red" ∨ m.color = "blue")
    (same : State.required (List.ofFn colors) ≠ "" → m.color = State.required (List.ofFn colors)) :
    NancyOk colors { s with nancy := s.nancy.hear n m, mail := s.mail.eraseIdx k } := by
  obtain ⟨type, r, chosen⟩ := wf.mail m member
  have expected : ¬(m.type ≠ .decide ∨ m.color ≠ "red" ∧ m.color ≠ "blue") := by
    rcases two with red | blue
    · simp [type, red]
    · simp [type, blue]
  have agrees : ¬(s.nancy.required ≠ "" ∧ m.color ≠ s.nancy.required ∨
      s.nancy.consensus ≠ "" ∧ m.color ≠ s.nancy.consensus) := by
    rintro (⟨some, other⟩ | ⟨some, other⟩)
    · rw [ok.required] at some other
      exact other (same some)
    · obtain ⟨r', chosen'⟩ := ok.consensus some
      exact other (wf.votes.agree chosen chosen')
  unfold Nancy.hear
  rw [if_neg expected, if_neg agrees]
  refine ⟨ok.complaint, ok.required, fun _ => ⟨r, chosen⟩, fun stopper => ?_⟩
  rcases Bool.or_eq_true_iff.mp stopper with old | now
  · exact Nat.lt_succ_of_lt (ok.stopper old)
  · exact of_decide_eq_true now

theorem step_nancy (ok : NancyOk colors s) (wf : Wf s)
    (two : Colored (fun c => c = "red" ∨ c = "blue") s)
    (same : Colored (fun c => State.required (List.ofFn colors) ≠ "" → c = State.required (List.ofFn colors)) s)
    (moved : s.step a = some t) : NancyOk colors t := by
  obtain ⟨_, moved⟩ := Option.ite_none_left_eq_some.mp moved
  cases a with
  | send i =>
      have sends := send_sends moved
      exact ok.servers_move sends.nancy (sends.accepts ▸ List.Subset.refl _)
  | receive i k =>
      obtain ⟨u, p, sv, _, _, _, _, _, nancy, accepts⟩ := receive_looked moved
      exact ok.servers_move nancy accepts
  | suspect i =>
      obtain ⟨_, moved⟩ := Option.ite_none_right_eq_some.mp moved
      cases Option.some.inj moved
      exact ok.servers_move rfl (List.Subset.refl _)
  | nancy k =>
      obtain ⟨m, found, rfl⟩ := Option.map_eq_some_iff.mp moved
      have member := List.mem_of_getElem? found
      exact ok.hears wf member (two.mail m member) (same.mail m member)
  | stop =>
      obtain ⟨stopper, moved⟩ := Option.ite_none_right_eq_some.mp moved
      cases Option.some.inj moved
      have many := ok.stopper stopper
      unfold Nancy.stop
      rw [if_neg (by omega)]
      exact ⟨ok.complaint, ok.required, ok.consensus, ok.stopper⟩

/-- Nancy sees only decisions on one color that is valid, and stops with a majority of
them. -/
theorem nancy_never_complains (path : Reaches State.step (State.start colors) ls s)
    (two : ∀ i, colors i = "red" ∨ colors i = "blue") : s.nancy.complaint = none := by
  have all := path.invariant (P := fun s => Wf s ∧ NancyOk colors s ∧
      Colored (fun c => c = "red" ∨ c = "blue") s ∧
      Colored (fun c => State.required (List.ofFn colors) ≠ "" → c = State.required (List.ofFn colors)) s)
    (fun ⟨wf, ok, two, same⟩ moved =>
      ⟨step_wf wf moved, step_nancy ok wf two same moved, step_colored two moved, step_colored same moved⟩)
    ⟨start_wf colors, ⟨rfl, rfl, fun h => absurd rfl h, by rintro ⟨⟩⟩, start_colored two,
      start_colored fun i some => eq_required some (List.mem_ofFn.mpr ⟨i, rfl⟩)⟩
  exact all.2.1.complaint

theorem nancy_never_complains_two : ∃ s : State 2, s.nancy.received = 2 ∧ s.nancy.complaint = none := by
  have ran : (run State.step (State.start fun i : Fin 2 => if i = 0 then "red" else "blue") [.send 0, .send 1,
      .receive 1 0, .receive 1 0, .send 1, .send 1, .receive 1 0, .receive 0 0, .send 0, .send 1, .receive 1 0,
      .receive 1 0, .send 1, .send 1, .send 0, .receive 0 0, .send 0, .nancy 0, .nancy 0]).any
      (fun s => s.nancy.received == 2) = true := by decide +kernel
  obtain ⟨s, path, received⟩ := (Option.any_eq_true _ _).mp ran
  exact ⟨s, by simpa using received, nancy_never_complains (run_iff_reaches.mp path) (by decide)⟩

end Cotamer.Consensus
