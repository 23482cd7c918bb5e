import Cotamer.Event.Invariant

/-! New events. A quorum takes its arguments one by one while only its creator
knows it, and may trigger when it is sealed. -/
namespace Cotamer.Event
open SwapVector References Transition

variable {s t : World} {g g' base : Graph} {o : Outside} {n q m : EventId} {h : Handle}
  {done list : List Handle} {args args' : EventId → List Handle} {explicit : EventId → Prop}
  {x y : Option EventId} {rank : EventId → Nat} {flight : List EventId} {form : Form}

/-- Quorum `q` gets the argument positions `list`. -/
def withArgs (args : EventId → List Handle) (q : EventId) (list : List Handle) :
    EventId → List Handle := fun m => if m = q then list else args m

theorem Inv.untriggered (inv : Inv s) (high : s.graph.next ≤ n) :
    (s.graph.body n).triggered = false := by
  cases fired : (s.graph.body n).triggered with
  | false => rfl
  | true =>
      rcases inv.counted.reached n fired with explicit | ⟨quorum, _⟩
      · exact absurd (inv.explicit n explicit).1 (Nat.not_lt.mpr high)
      · rw [inv.below.kinds n high] at quorum
        contradiction

/-! Allocation. -/

/-- The fresh body of a plain event or of a quorum. -/
def freshBody (isQuorum : Bool) (quorum : Nat) : EventBody := { isQuorum, quorum }

section Alloc
variable (kind : Bool) (k : Nat)

theorem alloc_below (below : g.Below) : (g.alloc (freshBody kind k)).Below := by
  have body : ∀ m, m ≠ g.next → (g.alloc (freshBody kind k)).body m = g.body m := by
    intro m other
    simp [other]
  constructor
  · intro n high
    rw [body n (Nat.ne_of_gt high)]
    exact below.kinds n (Nat.le_of_succ_le high)
  · intro n high
    rw [body n (Nat.ne_of_gt high)]
    exact below.members n (Nat.le_of_succ_le high)
  · intro n q high member
    by_cases same : q = g.next
    · subst same
      simp [freshBody] at member
    · rw [body q same] at member
      exact below.noMember n q (Nat.le_of_succ_le high) member
  · exact fun n d high => below.noQueue n d (Nat.le_of_succ_le high)

theorem alloc_rank (low : m ≠ g.next) : rankOf (g.alloc (freshBody kind k)) m = rankOf g m := by
  simp [rankOf, low]

theorem alloc_linked (linked : Linked (rankOf g) [] [] o g) (below : g.Below)
    (unheld : o.Below g.next) : Linked (rankOf (g.alloc (freshBody kind k))) [] [g.next] o
      (g.alloc (freshBody kind k)) := by
  have noMembers := below.members g.next (Nat.le_refl _)
  have noMember := fun q => below.noMember g.next q (Nat.le_refl _)
  have members : ∀ m, ((g.alloc (freshBody kind k)).body m).members = (g.body m).members := by
    intro m
    by_cases same : m = g.next
    · simp [same, noMembers, freshBody]
    · simp [same]
  constructor
  · intro e q
    have before := linked.link e q
    rw [members]
    by_cases same : e = g.next
    · simp [same, freshBody, List.count_eq_zero.mpr (noMember q)]
    · simpa [same] using before
  · intro e q fired
    by_cases same : e = g.next
    · simp [same, freshBody]
    · simp only [Graph.alloc_body, same, if_false] at fired ⊢
      exact linked.silent e q fired
  · intro e q listed
    exact nomatch listed
  · intro e q member
    rw [members] at member
    have apart : e ≠ g.next := by
      rintro rfl
      exact noMember q member
    have other : q ≠ g.next := by
      rintro rfl
      rw [noMembers] at member
      exact nomatch member
    rw [alloc_rank kind k apart, alloc_rank kind k other]
    simpa [other] using linked.ranked e q member
  · intro n
    have same : ∀ n, held (g.alloc (freshBody kind k)) o [] n = held g o [] n :=
      fun n => held_congr members rfl
    by_cases here : n = g.next
    · subst here
      obtain ⟨client, waiting, visiting⟩ := unheld g.next (Nat.le_refl _)
      have none : ∀ h, held g o [] g.next h = 0 := by
        intro h
        have queues := fun d => below.noQueue g.next d (Nat.le_refl _)
        cases h with
        | flight => rfl
        | client => exact client
        | coroutine c => simp [held, waiting c]
        | visit d => simp [held, visiting d]
        | quorum q => exact List.count_eq_zero.mpr (noMember q)
        | asap d => exact List.count_eq_zero.mpr fun listed => queues d (.inl listed)
        | migrate d => exact List.count_eq_zero.mpr fun listed => queues d (.inr listed)
      have refcount : ((g.alloc (freshBody kind k)).body g.next).refcount = 0 + 1 := by
        simp [freshBody]
      rw [refcount]
      apply counts_zero.gain .flight
      · intro h other
        have before := none h
        rw [← same] at before
        cases h <;> first | contradiction | exact before
      · simp [held]
    · have refcount : ((g.alloc (freshBody kind k)).body n).refcount = (g.body n).refcount := by
        simp [here]
      rw [refcount]
      apply (linked.covered n).congr
      intro h
      rw [← same]
      cases h <;> first | rfl | simp [held, Ne.symm here]

theorem alloc_triggered (untriggered : (g.body g.next).triggered = false) (m : EventId) :
    ((g.alloc (freshBody kind k)).body m).triggered = (g.body m).triggered := by
  by_cases same : m = g.next
  · simp [same, untriggered, freshBody]
  · simp [same]

theorem alloc_counted (counted : Counted args explicit none none g)
    (untriggered : (g.body g.next).triggered = false) (others : ∀ m, m ≠ g.next → args' m = args m)
    (fresh : kind = true → args' g.next = [] ∧ y = some g.next) :
    Counted args' explicit none y (g.alloc (freshBody kind k)) := by
  have triggered := alloc_triggered kind k untriggered
  have body : ∀ m, m ≠ g.next → (g.alloc (freshBody kind k)).body m = g.body m := by
    intro m other
    simp [other]
  have here : (g.alloc (freshBody kind k)).body g.next = freshBody kind k := by
    simp
  have positions : ∀ m, m ≠ g.next →
      triggeredArgs args' (g.alloc (freshBody kind k)) m = triggeredArgs args g m := by
    intro m other
    rw [triggeredArgs, handleTriggered_congr triggered, others m other, triggeredArgs]
  have fired : ∀ m, m ≠ g.next →
      firedMembers (g.alloc (freshBody kind k)) m = firedMembers g m :=
    fun m other => firedMembers_congr triggered (by rw [body m other])
  constructor
  · intro m
    by_cases same : m = g.next
    · simp [same, firedMembers, freshBody]
    · rw [positions m same, fired m same, body m same]
      exact counted.atMost m
  · intro m e
    by_cases same : m = g.next
    · simp [same, freshBody]
    · rw [body m same, others m same]
      exact counted.among m e
  · intro m up
    have other : m ≠ g.next := by
      rintro rfl
      rw [triggered, untriggered] at up
      contradiction
    rw [Due, positions m other, body m other]
    exact counted.reached m (triggered m ▸ up)
  · intro m _ quorum live waiting
    by_cases same : m = g.next
    · subst same
      rw [here] at quorum
      simp [triggeredArgs, (fresh quorum).1, firedMembers, freshBody]
    · rw [body m same] at quorum live waiting
      rw [positions m same, fired m same, body m same, others m same]
      obtain ⟨sum, rest⟩ := counted.exactly m (by rintro ⟨⟩) quorum live waiting
      exact ⟨sum, fun e still => rest e (triggered e ▸ still)⟩
  · intro m exempt quorum live waiting
    by_cases same : m = g.next
    · subst same
      rw [here] at quorum
      exact absurd (fresh quorum).2 exempt
    · rw [body m same] at quorum live waiting ⊢
      exact counted.below m (by rintro ⟨⟩) quorum live waiting

theorem alloc_tidied (tidied : Tidied none g)
    (untriggered : (g.body g.next).triggered = false) :
    Tidied none (g.alloc (freshBody kind k)) := by
  have fresh : (g.alloc (freshBody kind k)).body g.next = freshBody kind k := by simp
  have same := alloc_triggered kind k untriggered
  have alike : ∀ m, m ≠ g.next → ((g.alloc (freshBody kind k)).body m = g.body m) := by
    intro m other
    simp [other]
  have spent : ∀ m, m ≠ g.next → (Spent (g.alloc (freshBody kind k)) m ↔ Spent g m) := by
    intro m other
    simp only [Spent, same, alike m other]
  refine ⟨fun m => ?_, fun m free => ?_, by rintro _ ⟨⟩⟩
  · by_cases here : m = g.next
    · subst here
      have tidy : Tidy (g.alloc (freshBody kind k)) g.next := by
        refine ⟨?_, ?_, ?_⟩ <;> rw [fresh] <;> simp [freshBody]
      exact tidy
    · have tidy := tidied.tidy m
      refine ⟨?_, ?_, ?_⟩ <;> rw [alike m here]
      · exact tidy.once
      · exact tidy.gone
      · rw [spent m here]
        exact tidy.fired
  · by_cases here : m = g.next
    · subst here
      intro dead
      rw [fresh] at dead
      contradiction
    · have collected := tidied.collected m free
      rw [Collected, alike m here, spent m here]
      intro dead
      refine (collected dead).imp id fun left => ⟨left.1, fun low => left.2 ?_⟩
      exact Nat.lt_of_le_of_ne (Nat.le_of_lt_succ low) here

theorem alloc_listening (listening : Listening o none g) (unheld : o.Below g.next) :
    Listening o none (g.alloc (freshBody kind k)) := by
  intro c m
  by_cases same : m = g.next
  · simp [same, freshBody, (unheld g.next (Nat.le_refl _)).2.1 c]
  · simpa [same] using listening c m

end Alloc

/-- An operation that creates one event keeps the invariant, once its graph and
its handles are in order. -/
theorem Inv.grows (inv : Inv s) (next : t.graph.next = s.graph.next + 1)
    (same : ∀ m, m < s.graph.next → (t.graph.body m).isQuorum = (s.graph.body m).isQuorum ∧
      (t.graph.body m).quorum = (s.graph.body m).quorum ∧ t.args m = s.args m)
    (triggered : ∀ m, (s.graph.body m).triggered = true → (t.graph.body m).triggered = true)
    (linked : Linked (rankOf t.graph) [] [] t.outside t.graph)
    (counted : Counted t.args (fun n => t.explicit n = true) none none t.graph)
    (listening : Listening t.outside none t.graph) (below : t.graph.Below)
    (unheld : t.outside.Below t.graph.next) (explicit : ∀ m, t.explicit m = s.explicit m)
    (nodes : ∀ node ∈ t.nodes, node ∈ s.nodes ∨ node.Built t)
    (tidied : Tidied none t.graph) : Inv t where
  linked := linked
  counted := counted
  listening := listening
  below := below
  unheld := unheld
  explicit n marked := by
    obtain ⟨low, set⟩ := inv.explicit n (explicit n ▸ marked)
    rw [next]
    exact ⟨Nat.lt_succ_of_lt low, triggered n set⟩
  built node member := by
    rcases nodes node member with old | new
    · exact (inv.built node old).grows (next ▸ Nat.le_succ _) same
    · exact new
  tidied := tidied

theorem Outside.Below.mono (unheld : o.Below k) (more : k ≤ k') : o.Below k' :=
  fun n high => unheld n (more.trans high)

theorem step_plain (inv : Inv s) (nodes : List Node)
    (built : ∀ node ∈ nodes, node ∈ s.nodes ∨ node = ⟨.any, [], some s.graph.next⟩) :
    Inv { s with graph := s.graph.alloc {}, outside := s.outside.give s.graph.next, nodes } := by
  have untriggered := inv.untriggered (Nat.le_refl _)
  apply inv.grows
  · rfl
  · intro m low
    simp [Nat.ne_of_lt low]
  · intro m fired
    exact (alloc_triggered false 0 untriggered m).trans fired
  · exact (alloc_linked false 0 inv.linked inv.below inv.unheld).give
  · exact alloc_counted false 0 inv.counted untriggered (fun _ _ => rfl) (fun h => nomatch h)
  · exact alloc_listening (o := s.outside) false 0 inv.listening inv.unheld
  · exact alloc_below false 0 inv.below
  · exact (inv.unheld.mono (Nat.le_succ _)).give (Nat.lt_succ_self _)
  · exact fun _ => rfl
  · intro node member
    apply (built node member).imp id
    rintro rfl
    refine ⟨s.graph.next, rfl, Nat.lt_succ_self _, ?_⟩
    simp
  · exact alloc_tidied false 0 inv.tidied untriggered

/-! Arguments. -/

/-- A quorum with the argument positions `done`, before it is sealed. `base` is
the graph right after the allocation. -/
structure Opening (s : World) (base : Graph) (done : List Handle) (g : Graph) : Prop where
  next : g.next = s.graph.next + 1
  kinds : ∀ m, (g.body m).isQuorum = (base.body m).isQuorum
  quorums : ∀ m, (g.body m).quorum = (base.body m).quorum
  triggered : ∀ m, (g.body m).triggered = (s.graph.body m).triggered
  inbox : g.inbox = s.graph.inbox
  below : g.Below
  linked : Linked (rankOf base) [] [s.graph.next] s.outside g
  counted : Counted (withArgs s.args s.graph.next done) (fun n => s.explicit n = true) none
    (some s.graph.next) g
  listening : Listening s.outside none g
  tidied : Tidied none g

theorem Opening.ranks (opening : Opening s base done g) : rankOf g = rankOf base := by
  funext n
  rw [rankOf, rankOf, opening.kinds]

theorem Opening.deep (opening : Opening s base done g) (m : EventId) : rankOf base m ≤ g.next := by
  rw [← opening.ranks]
  exact opening.below.deep m

theorem triggeredArgs_append (args : EventId → List Handle) (q : EventId) (done : List Handle)
    (h : Handle) (m : EventId) : triggeredArgs (withArgs args q (done ++ [h])) g m =
      triggeredArgs (withArgs args q done) g m +
        if m = q then (if g.handleTriggered h then 1 else 0) else 0 := by
  by_cases same : m = q
  · simp [triggeredArgs, withArgs, same, List.countP_append, List.countP_singleton]
  · simp [triggeredArgs, withArgs, same]

theorem count_append_if {α : Type} [BEq α] [LawfulBEq α] [DecidableEq α] (l : List α) (a b : α) (p : Prop) [Decidable p] :
    (l ++ if p then [a] else []).count b = l.count b + if p ∧ b = a then 1 else 0 := by
  by_cases holds : p
  · by_cases same : b = a
    · simp [holds, same]
    · simp [holds, same, Ne.symm same]
  · simp [holds]

theorem count_append (args : EventId → List Handle) (q : EventId) (done : List Handle)
    (h h' : Handle) (m : EventId) : (withArgs args q (done ++ [h]) m).count h' =
      (withArgs args q done m).count h' + if m = q ∧ h' = h then 1 else 0 := by
  by_cases same : m = q
  · simpa [withArgs, same] using count_append_if done h h' True
  · simp [withArgs, same]

/-- A position that has triggered already is only counted. -/
def Graph.tally (g : Graph) (q : EventId) : Graph :=
  g.modify q fun b => { b with triggeredMembers := b.triggeredMembers + 1 }

theorem tally_body (g : Graph) (q m : EventId) : (g.tally q).body m = { g.body m with
    triggeredMembers := (g.body m).triggeredMembers + if m = q then 1 else 0 } := by
  simp only [Graph.tally, Graph.modify_body]
  split <;> rfl

theorem tally_linked (linked : Linked rank [] flight o g) (q : EventId) :
    Linked rank [] flight o (g.tally q) := by
  apply linked.update
  · intro m
    rw [tally_body]
    exact ⟨rfl, rfl, rfl, rfl⟩
  · intro m
    have members : ∀ q', ((g.tally q).body q').members = (g.body q').members := by
      intro q'
      rw [tally_body]
    have inbox : (g.tally q).inbox = g.inbox := rfl
    rw [held_congr members inbox, tally_body]
    exact linked.covered m

theorem tally_alike (g : Graph) (q m : EventId) : Alike g (g.tally q) m := by
  refine ⟨rfl, ?_, ?_, ?_, fun e => ?_⟩
  all_goals rw [tally_body]

theorem tally_counted (counted : Counted (withArgs args q done) explicit none (some q) g)
    (fired : g.handleTriggered h = true) :
    Counted (withArgs args q (done ++ [h])) explicit none (some q) (g.tally q) := by
  have triggered : ∀ m, ((g.tally q).body m).triggered = (g.body m).triggered := by
    intro m
    rw [tally_body]
  have positions : ∀ m, triggeredArgs (withArgs args q (done ++ [h])) (g.tally q) m =
      triggeredArgs (withArgs args q done) g m + if m = q then 1 else 0 := by
    intro m
    rw [triggeredArgs_congr triggered, triggeredArgs_append, if_pos fired]
  have members : ∀ m, firedMembers (g.tally q) m = firedMembers g m :=
    fun m => firedMembers_congr triggered (by rw [tally_body])
  constructor
  · intro m
    rw [positions, members, tally_body]
    have := counted.atMost m
    simp only
    omega
  · intro m e
    rw [count_append, tally_body]
    exact (counted.among m e).trans (Nat.le_add_right _ _)
  · intro m up
    rw [Due, positions, tally_body]
    apply (counted.reached m (triggered m ▸ up)).imp id
    rintro ⟨quorum, enough⟩
    exact ⟨quorum, Nat.le_add_right_of_le enough⟩
  · intro m _ quorum live waiting
    rw [positions, members]
    rw [tally_body] at quorum live waiting ⊢
    obtain ⟨sum, rest⟩ := counted.exactly m (by rintro ⟨⟩) quorum live waiting
    refine ⟨by simp only; omega, fun e still => ?_⟩
    have other : some e ≠ h := by
      rintro rfl
      rw [triggered] at still
      exact Bool.false_ne_true (still.symm.trans fired)
    simp only [count_append, other, and_false, if_false]
    exact rest e (triggered e ▸ still)
  · intro m exempt quorum live waiting
    have other : m ≠ q := fun same => exempt (congrArg some same.symm)
    rw [tally_body] at quorum live waiting ⊢
    simpa [other] using counted.below m exempt quorum live waiting

/-- A position that may trigger later: the quorum listens to it and keeps the
copied handle. -/
def Graph.join (g : Graph) (q n : EventId) : Graph :=
  ((g.ref n).addListener n (.quorum q)).modify q fun b =>
    { b with
      members := b.members ++ [n]
      wantInterest := b.wantInterest || ((g.ref n).body n).wantInterest }

theorem join_body (g : Graph) (apart : n ≠ q) (m : EventId) :
    ∃ wantInterest, (g.join q n).body m = { g.body m with
      wantInterest
      refcount := (g.body m).refcount + if m = n then 1 else 0
      listeners := (g.body m).listeners ++ if m = n then [.quorum q] else []
      members := (g.body m).members ++ if m = q then [n] else [] } := by
  simp only [Graph.join, Graph.modify_body, Graph.addListener_body, ref_body_eq]
  by_cases isQ : m = q
  · subst isQ
    exact ⟨_, by simp [Ne.symm apart]; rfl⟩
  · refine ⟨(g.body m).wantInterest, ?_⟩
    by_cases isN : m = n
    · simp [isN, apart]
    · simp [isQ, isN]

theorem join_members (g : Graph) (apart : n ≠ q) (m e : EventId) :
    ((g.join q n).body m).members.count e =
      (g.body m).members.count e + if m = q ∧ e = n then 1 else 0 := by
  obtain ⟨_, eq⟩ := join_body g apart m
  rw [eq]
  exact count_append_if _ _ _ _

theorem join_linked (linked : Linked rank [] flight o g) (fresh : (g.body n).triggered = false)
    (below : rank n < rank q) (quorum : (g.body q).isQuorum = true) :
    Linked rank [] flight o (g.join q n) := by
  have apart : n ≠ q := by
    rintro rfl
    exact Nat.lt_irrefl _ below
  have members := join_members g apart
  have listeners : ∀ e m, ((g.join q n).body e).listeners.count (.quorum m) =
      (g.body e).listeners.count (.quorum m) + if m = q ∧ e = n then 1 else 0 := by
    intro e m
    obtain ⟨_, eq⟩ := join_body g apart e
    rw [eq]
    simpa [and_comm] using count_append_if (g.body e).listeners (.quorum q) (.quorum m) (e = n)
  have triggered : ∀ m, ((g.join q n).body m).triggered = (g.body m).triggered := by
    intro m
    obtain ⟨_, eq⟩ := join_body g apart m
    rw [eq]
  constructor
  · intro e m
    have before := linked.link e m
    rw [members, listeners, triggered, before]
    cases fired : (g.body e).triggered with
    | false => rfl
    | true =>
        have other : e ≠ n := by
          rintro rfl
          rw [fresh] at fired
          contradiction
        simp [other]
  · intro e m fired
    rw [triggered] at fired
    apply List.count_eq_zero.mp
    have other : e ≠ n := by
      rintro rfl
      rw [fresh] at fired
      contradiction
    rw [listeners, List.count_eq_zero.mpr (linked.silent e m fired)]
    simp [other]
  · exact fun e m listed => nomatch listed
  · intro e m member
    have counts := members m e
    have positive := List.count_pos_iff.mpr member
    obtain ⟨_, eq⟩ := join_body g apart m
    rw [eq]
    by_cases new : m = q ∧ e = n
    · obtain ⟨rfl, rfl⟩ := new
      exact ⟨below, quorum⟩
    · rw [if_neg new] at counts
      exact linked.ranked e m (List.count_pos_iff.mp (by omega))
  · intro e
    have refcount : ((g.join q n).body e).refcount =
        (g.body e).refcount + if e = n then 1 else 0 := by
      obtain ⟨_, eq⟩ := join_body g apart e
      rw [eq]
    rw [refcount]
    by_cases here : e = n
    · rw [if_pos here]
      apply (linked.covered e).gain (.quorum q)
      · intro x other
        cases x <;> first | rfl | skip
        rename_i m
        have apart : m ≠ q := fun same => other (same ▸ rfl)
        simp [held, members, apart]
      · simp [held, members, here]
    · rw [if_neg here]
      apply (linked.covered e).congr
      intro x
      cases x <;> first | rfl | skip
      simp [held, members, here]

/-- A quorum that is being built is held and untriggered. -/
theorem join_tidied (tidied : Tidied none g) (apart : n ≠ q) (alive : 0 < (g.body n).refcount)
    (held : 0 < (g.body q).refcount) (fresh : (g.body q).triggered = false) :
    Tidied none (g.join q n) := by
  have body := join_body g apart
  have triggered : ∀ m, ((g.join q n).body m).triggered = (g.body m).triggered := by
    intro m
    obtain ⟨_, eq⟩ := body m
    rw [eq]
  have freed : ∀ m, ((g.join q n).body m).freed = (g.body m).freed := by
    intro m
    obtain ⟨_, eq⟩ := body m
    rw [eq]
  have gone : ∀ m, ((g.join q n).body m).refcount = 0 → (g.body m).refcount = 0 := by
    intro m dead
    obtain ⟨_, eq⟩ := body m
    rw [eq] at dead
    exact (Nat.add_eq_zero_iff.mp dead).1
  have members : ∀ m, m ≠ q → ((g.join q n).body m).members = (g.body m).members := by
    intro m other
    obtain ⟨_, eq⟩ := body m
    rw [eq]
    simp [other]
  have spent : ∀ m, m ≠ q → (Spent (g.join q n) m ↔ Spent g m) := by
    intro m other
    simp only [Spent, triggered, members m other]
  refine ⟨fun m => ⟨?_, fun deleted => ?_, fun set => ?_⟩, fun m free dead => ?_,
    by rintro _ ⟨⟩⟩
  · exact freed m ▸ (tidied.tidy m).once
  · rw [freed] at deleted
    have dead := ((tidied.tidy m).gone deleted).1
    have notQ : m ≠ q := by
      rintro rfl
      exact absurd dead (Nat.ne_of_gt held)
    have notN : m ≠ n := by
      rintro rfl
      exact absurd dead (Nat.ne_of_gt alive)
    obtain ⟨_, eq⟩ := body m
    rw [members m notQ, eq]
    simpa [notN] using (tidied.tidy m).gone deleted
  · rw [triggered] at set
    have other : m ≠ q := by
      rintro rfl
      rw [fresh] at set
      contradiction
    exact (spent m other).mpr ((tidied.tidy m).fired set)
  · have before := gone m dead
    have other : m ≠ q := by
      rintro rfl
      exact absurd before (Nat.ne_of_gt held)
    rw [freed, spent m other, members m other]
    exact tidied.collected m free before

theorem join_counted (counted : Counted (withArgs args q done) explicit none (some q) g)
    (apart : n ≠ q) (fresh : (g.body n).triggered = false) (alive : 0 < (g.body n).refcount) :
    Counted (withArgs args q (done ++ [some n])) explicit none (some q) (g.join q n) := by
  have triggered : ∀ m, ((g.join q n).body m).triggered = (g.body m).triggered := by
    intro m
    obtain ⟨_, eq⟩ := join_body g apart m
    rw [eq]
  have members := join_members g apart
  have positions : ∀ m, triggeredArgs (withArgs args q (done ++ [some n])) (g.join q n) m =
      triggeredArgs (withArgs args q done) g m := by
    intro m
    rw [triggeredArgs_congr triggered, triggeredArgs_append]
    simp [Graph.handleTriggered, fresh]
  have fired : ∀ m, firedMembers (g.join q n) m = firedMembers g m := by
    intro m
    obtain ⟨_, eq⟩ := join_body g apart m
    simp only [firedMembers, triggered]
    rw [eq]
    by_cases same : m = q <;> simp [same, List.countP_append, fresh]
  have live : ∀ m, 0 < ((g.join q n).body m).refcount → 0 < (g.body m).refcount := by
    intro m positive
    by_cases same : m = n
    · exact same ▸ alive
    · obtain ⟨_, eq⟩ := join_body g apart m
      rw [eq] at positive
      simpa [same] using positive
  constructor
  · intro m
    obtain ⟨_, eq⟩ := join_body g apart m
    rw [positions, fired, eq]
    exact counted.atMost m
  · intro m e
    simp only [count_append, members, Option.some.injEq]
    exact Nat.add_le_add_right (counted.among m e) _
  · intro m up
    obtain ⟨_, eq⟩ := join_body g apart m
    rw [Due, positions, eq]
    exact counted.reached m (triggered m ▸ up)
  · intro m _ quorum positive waiting
    have positive := live m positive
    rw [triggered] at waiting
    obtain ⟨_, eq⟩ := join_body g apart m
    rw [positions, fired]
    simp only [members, count_append, Option.some.injEq]
    rw [eq] at quorum ⊢
    obtain ⟨sum, rest⟩ := counted.exactly m (by rintro ⟨⟩) quorum positive waiting
    refine ⟨sum, fun e still => ?_⟩
    rw [rest e (triggered e ▸ still)]
  · intro m exempt quorum positive waiting
    have positive := live m positive
    rw [triggered] at waiting
    obtain ⟨_, eq⟩ := join_body g apart m
    rw [eq] at quorum ⊢
    exact counted.below m exempt quorum positive waiting

theorem Opening.evolves (opening : Opening s base done g) (evolves : Evolves g g')
    (same : ∀ m, (g'.body m).triggered = (g.body m).triggered) (inbox : g'.inbox = g.inbox)
    (linked : Linked (rankOf base) [] [s.graph.next] s.outside g')
    (counted : Counted (withArgs s.args s.graph.next done') (fun n => s.explicit n = true) none
      (some s.graph.next) g')
    (listening : Listening s.outside none g') (tidied : Tidied none g') :
    Opening s base done' g' where
  next := evolves.next.trans opening.next
  kinds m := (evolves.kinds m).trans (opening.kinds m)
  quorums m := (evolves.quorums m).trans (opening.quorums m)
  triggered m := (same m).trans (opening.triggered m)
  inbox := inbox.trans opening.inbox
  below := opening.below.evolves evolves
  linked := linked
  counted := counted
  listening := listening
  tidied := tidied

theorem tally_evolves (g : Graph) (q : EventId) : Evolves g (g.tally q) where
  next := rfl
  kinds m := by rw [tally_body]
  quorums m := by rw [tally_body]
  triggered m fired := by rwa [tally_body]
  fewer m := by rw [tally_body]
  posts _ _ queued := .inl queued

theorem join_below (below : g.Below) (apart : n ≠ q) (low : n < g.next) (lowQ : q < g.next) :
    (g.join q n).Below := by
  constructor
  · intro m high
    obtain ⟨_, eq⟩ := join_body g apart m
    rw [eq]
    exact below.kinds m high
  · intro m high
    obtain ⟨_, eq⟩ := join_body g apart m
    have other : m ≠ q := Nat.ne_of_gt (lowQ.trans_le high)
    rw [eq]
    simpa [other] using below.members m high
  · intro m p high member
    have counts := join_members g apart p m
    have positive := List.count_pos_iff.mpr member
    have other : m ≠ n := Nat.ne_of_gt (low.trans_le high)
    rw [if_neg (fun both => other both.2)] at counts
    exact below.noMember m p high (List.count_pos_iff.mp (by omega))
  · exact below.noQueue

/-- One argument position, whose handle somebody else keeps alive. -/
theorem addCopy_opening (opening : Opening s base done g) (unheld : s.outside.Below s.graph.next)
    (untriggered : (s.graph.body s.graph.next).triggered = false)
    (kind : (base.body s.graph.next).isQuorum = true) (holds : s.outside.holds h = true) :
    Opening s base (done ++ [h]) (g.addCopy s.graph.next h) := by
  have deep := opening.deep
  cases h with
  | none =>
      apply opening.evolves (tally_evolves g s.graph.next)
      · intro m
        rw [tally_body]
      · rfl
      · exact tally_linked opening.linked s.graph.next
      · exact tally_counted opening.counted rfl
      · intro c m
        rw [tally_body]
        exact opening.listening c m
      · exact opening.tidied.alike fun m => tally_alike g _ m
  | some n =>
      have owns : 0 < s.outside.client n := by simpa [Outside.holds] using holds
      have low := unheld.client owns
      have alive := opening.linked.alive .client owns
      have same : ((g.ref n).body n).triggered = (g.body n).triggered := by rw [ref_body_eq]
      simp only [Graph.addCopy, Graph.copyHandle, Graph.addMember, same]
      split
      · rename_i fired
        have linked := tally_linked (ref_linked opening.linked n) s.graph.next
        have counted := tally_counted (h := some n) (ref_keeps_counted opening.counted alive)
          (same.trans fired)
        have evolves := (ref_evolves g n).trans (tally_evolves (g.ref n) s.graph.next)
        obtain ⟨dropped, shrinks⟩ := deref_linked (by rwa [evolves.next]) linked
        have listening : Listening s.outside none ((g.ref n).tally s.graph.next) := by
          intro c m
          rw [tally_body, ref_body_eq]
          exact opening.listening c m
        have tidied := (ref_tidied (opening.tidied.hold alive)).alike
          fun m => tally_alike (g.ref n) s.graph.next m
        apply opening.evolves (evolves.trans shrinks.evolves) _ shrinks.inbox dropped
          (counted.shrinks shrinks) (listening.shrinks shrinks)
          (tidied.keeps (deref_keeps (by rwa [evolves.next]) linked))
        intro m
        rw [shrinks.triggered, tally_body, ref_body_eq]
      · rename_i waiting
        have fresh : (g.body n).triggered = false := by simpa using waiting
        have apart : n ≠ s.graph.next := Nat.ne_of_lt low
        have quorum := (opening.kinds s.graph.next).trans kind
        have above : rankOf base n < rankOf base s.graph.next := by
          have plain : rankOf base n ≤ n + 1 := by
            unfold rankOf
            split
            · exact Nat.le_refl _
            · exact Nat.zero_le _
          rw [show rankOf base s.graph.next = s.graph.next + 1 from if_pos kind]
          exact Nat.lt_of_le_of_lt plain (Nat.succ_lt_succ low)
        have body := join_body g apart
        show Opening s base (done ++ [some n]) (g.join s.graph.next n)
        constructor
        · exact opening.next
        · intro m
          obtain ⟨_, eq⟩ := body m
          rw [eq]
          exact opening.kinds m
        · intro m
          obtain ⟨_, eq⟩ := body m
          rw [eq]
          exact opening.quorums m
        · intro m
          obtain ⟨_, eq⟩ := body m
          rw [eq]
          exact opening.triggered m
        · exact opening.inbox
        · apply join_below opening.below apart
          · rw [opening.next]
            exact Nat.lt_succ_of_lt low
          · rw [opening.next]
            exact Nat.lt_succ_self _
        · exact join_linked opening.linked fresh above quorum
        · exact join_counted opening.counted apart fresh alive
        · intro c m
          obtain ⟨_, eq⟩ := body m
          have before := opening.listening c m
          rw [eq]
          rw [List.count_append, before]
          by_cases here : m = n <;> simp [here]
        · exact join_tidied opening.tidied apart alive opening.linked.flying
            ((opening.triggered _).trans untriggered)

theorem openQuorum_opening (opening : Opening s base done g)
    (unheld : s.outside.Below s.graph.next)
    (untriggered : (s.graph.body s.graph.next).triggered = false)
    (kind : (base.body s.graph.next).isQuorum = true) (holds : list.all s.outside.holds = true) :
    Opening s base (done ++ list) (list.foldl (Graph.addCopy s.graph.next) g) := by
  induction list generalizing done g with
  | nil =>
      rw [List.append_nil]
      exact opening
  | cons h list ih =>
      rw [List.all_cons, Bool.and_eq_true] at holds
      have first := addCopy_opening opening unheld untriggered kind holds.1
      rw [List.append_cons]
      exact ih first holds.2

theorem alloc_opening (inv : Inv s) (quorum : Nat) :
    Opening s (s.graph.alloc (freshBody true quorum)) []
      (s.graph.alloc (freshBody true quorum)) := by
  have untriggered := inv.untriggered (Nat.le_refl _)
  constructor
  · rfl
  · exact fun _ => rfl
  · exact fun _ => rfl
  · exact alloc_triggered true quorum untriggered
  · rfl
  · exact alloc_below true quorum inv.below
  · exact alloc_linked true quorum inv.linked inv.below inv.unheld
  · apply alloc_counted true quorum inv.counted untriggered
    · intro m other
      simp [withArgs, other]
    · intro _
      simp [withArgs]
  · exact alloc_listening true quorum inv.listening inv.unheld
  · exact alloc_tidied true quorum inv.tidied untriggered

/-! Sealing. -/

theorem sealQuorum_spec (opening : Opening s base list g) (inv : Inv s)
    (kind : (base.body s.graph.next).isQuorum = true) (home : CoroutineId → DriverId)
    (current : DriverId) :
    Settles (rankOf base) [] [s.graph.next] (withArgs s.args s.graph.next list)
      (fun n => s.explicit n = true) home ⟨none, current⟩ s.outside (some s.graph.next) ⟨g, none⟩
      ⟨g.sealQuorum home current s.graph.next, none⟩ := by
  have fresh := (opening.triggered s.graph.next).trans (inv.untriggered (Nat.le_refl _))
  simp only [Graph.sealQuorum]
  split
  · rename_i enough
    have weak : Counted (withArgs s.args s.graph.next list) (fun n => s.explicit n = true)
        (some s.graph.next) (some s.graph.next) g :=
      { opening.counted with
        exactly := fun m _ => opening.counted.exactly m (fun h => nomatch h) }
    have due : Due (withArgs s.args s.graph.next list) (fun n => s.explicit n = true) g
        s.graph.next := by
      refine .inr ⟨(opening.kinds _).trans kind, ?_⟩
      exact enough.trans ((Nat.le_add_right _ _).trans (opening.counted.atMost _))
    have settles : Settles (rankOf base) [] [s.graph.next] _ _ home ⟨none, current⟩ s.outside _
        ⟨g, none⟩ (triggerUnlock home ⟨none, current⟩ ⟨g, none⟩ s.graph.next) :=
      (triggerUnlock_settles opening.deep opening.linked weak fresh due opening.listening
        claims_none).1
    rwa [show triggerUnlock home ⟨none, current⟩ ⟨g, none⟩ s.graph.next = ⟨_, none⟩ from
      Wake.ext rfl (trigger_unclaimed settles.wakes rfl rfl)] at settles
  · rename_i idle
    have settled := opening.counted.settle fun _ => Nat.lt_of_not_le idle
    exact ⟨opening.linked, settled, Wakes.refl opening.listening, fun _ => opening.tidied⟩

/-- What a form of several arguments makes of the graph. -/
theorem make_settles (inv : Inv s) (home : CoroutineId → DriverId) (current : DriverId)
    (quorum : Nat) (holds : list.all s.outside.holds = true) :
    let base := s.graph.alloc (freshBody true quorum)
    let g := s.graph.openQuorum quorum list
    Opening s base list g ∧ Settles (rankOf base) [] [s.graph.next]
      (withArgs s.args s.graph.next list) (fun n => s.explicit n = true) home ⟨none, current⟩
      s.outside (some s.graph.next) ⟨g, none⟩ ⟨(s.graph.make home current quorum list).1, none⟩ := by
  intro base g
  have kind : (base.body s.graph.next).isQuorum = true := by
    simp [base, freshBody]
  have opening : Opening s base list g :=
    openQuorum_opening (alloc_opening inv quorum) inv.unheld
      (inv.untriggered (Nat.le_refl _)) kind holds
  exact ⟨opening, sealQuorum_spec opening inv kind home current⟩

/-- `any` or `all` of at least two arguments. -/
theorem step_quorum (inv : Inv s) (form : Form) (home : CoroutineId → DriverId) (current : DriverId)
    (holds : list.all s.outside.holds = true) (many : 2 ≤ list.length) :
    let r := s.graph.make home current (form.threshold list) list
    Inv { s with
      graph := r.1
      outside := s.outside.give s.graph.next
      nodes := ⟨form, list, some s.graph.next⟩ :: s.nodes
      args := withArgs s.args s.graph.next list } := by
  intro r
  let base := s.graph.alloc (freshBody true (form.threshold list))
  have kind : (base.body s.graph.next).isQuorum = true := by
    simp [base, freshBody]
  obtain ⟨opening, settles⟩ := make_settles inv home current (form.threshold list) holds
  have unheld : s.outside.Below (s.graph.openQuorum (form.threshold list) list).next := by
    rw [opening.next]
    exact inv.unheld.mono (Nat.le_succ _)
  have evolves : Evolves _ r.1 := settles.wakes.evolves unheld
  have next := evolves.next.trans opening.next
  have kinds : ∀ m, (r.1.body m).isQuorum = (base.body m).isQuorum :=
    fun m => (evolves.kinds m).trans (opening.kinds m)
  have quorums : ∀ m, (r.1.body m).quorum = (base.body m).quorum :=
    fun m => (evolves.quorums m).trans (opening.quorums m)
  have ranks : rankOf r.1 = rankOf base := by
    rw [← opening.ranks]
    exact evolves.rank
  apply inv.grows
  · exact next
  · intro m low
    have other : m ≠ s.graph.next := Nat.ne_of_lt low
    rw [kinds, quorums]
    simp [base, withArgs, other]
  · intro m fired
    exact evolves.triggered m ((opening.triggered m).trans fired)
  · rw [ranks]
    exact settles.linked.give
  · exact settles.counted
  · exact settles.wakes.listening
  · exact opening.below.evolves evolves
  · rw [show r.1.next = s.graph.next + 1 from next]
    exact (inv.unheld.mono (Nat.le_succ _)).give (Nat.lt_succ_self _)
  · exact fun _ => rfl
  · intro node member
    rcases List.mem_cons.mp member with rfl | old
    · right
      have built : World.Sealed { s with
          graph := r.1
          outside := s.outside.give s.graph.next
          nodes := ⟨form, list, some s.graph.next⟩ :: s.nodes
          args := withArgs s.args s.graph.next list } form list s.graph.next := by
        refine ⟨?_, (kinds _).trans kind, if_pos rfl, (quorums _).trans ?_⟩
        · rw [show r.1.next = s.graph.next + 1 from next]
          exact Nat.lt_succ_self _
        · simp [base, freshBody]
      unfold Node.Built
      split
      · simp_all
      · simp_all
      · simp_all
      · exact ⟨_, rfl, built⟩
    · exact .inl old
  · exact settles.tidied (opening.tidied.hold opening.linked.flying)

/-- A form that returns an event that exists already. -/
theorem Inv.record (inv : Inv s) (node : Node) (built : node.Built s) :
    Inv { s with nodes := node :: s.nodes } :=
  { inv with
    built := fun other member => by
      rcases List.mem_cons.mp member with rfl | old
      · exact built
      · exact inv.built other old }

theorem step_combine (inv : Inv s) (home : CoroutineId → DriverId) (current : DriverId)
    (holds : list.all s.outside.holds = true) : Inv (s.combined home form list current) := by
  match list with
  | [] =>
      cases form with
      | any =>
          apply step_plain inv
          intro node member
          exact (List.mem_cons.mp member).symm
      | all => exact inv.record ⟨.all, [], none⟩ rfl
  | [h] =>
      have built (t : World) : (Node.mk form [h] h).Built t := by
        cases form <;> rfl
      have combined : s.combined home form [h] current =
          { s with
            graph := s.graph.copyHandle h
            outside := s.outside.giveHandle h
            nodes := ⟨form, [h], h⟩ :: s.nodes } := by
        cases form <;> rfl
      rw [combined]
      cases h with
      | none => exact inv.record ⟨form, [none], none⟩ (built s)
      | some n =>
          have owns : 0 < s.outside.client n := by simpa [Outside.holds] using holds
          exact (step_copy inv owns).record ⟨form, [some n], some n⟩ (built _)
  | h :: h' :: rest =>
      have made := step_quorum inv form home current holds
        (by simp only [List.length_cons]; omega)
      cases form <;> exact made

end Cotamer.Event
