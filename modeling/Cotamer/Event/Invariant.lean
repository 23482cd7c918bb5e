import Cotamer.Event.World

/-! The invariant of the event graph between calls, and the operations that
create no event. -/
namespace Cotamer.Event
open SwapVector References Transition

/-- Quorums are above their members, which were created before them. -/
def rankOf (g : Graph) (n : EventId) : Nat := if (g.body n).isQuorum then n + 1 else 0

/-- What every operation keeps of the events that exist. -/
structure Evolves (g g' : Graph) : Prop where
  next : g'.next = g.next
  kinds : ∀ m, (g'.body m).isQuorum = (g.body m).isQuorum
  quorums : ∀ m, (g'.body m).quorum = (g.body m).quorum
  triggered : ∀ m, (g.body m).triggered = true → (g'.body m).triggered = true
  fewer : ∀ m, (g'.body m).members.Subperm (g.body m).members
  posts : ∀ d m, Queued g' d m → Queued g d m ∨ m < g.next

def Outside.Below (o : Outside) (next : EventId) : Prop :=
  ∀ n, next ≤ n → o.client n = 0 ∧ (∀ c, o.waiting c ≠ some n) ∧ ∀ d, o.visiting d ≠ some n

/-- No body and no queue refers to an event that does not exist yet. -/
structure Graph.Below (g : Graph) : Prop where
  kinds : ∀ n, g.next ≤ n → (g.body n).isQuorum = false
  members : ∀ n, g.next ≤ n → (g.body n).members = []
  noMember : ∀ n q, g.next ≤ n → n ∉ (g.body q).members
  noQueue : ∀ n d, g.next ≤ n → ¬Queued g d n

/-- The event that `any()` without arguments creates. -/
def World.Plain (s : World) (r : EventId) : Prop :=
  r < s.graph.next ∧ (s.graph.body r).isQuorum = false

/-- A quorum over the given argument positions. -/
def World.Sealed (s : World) (form : Form) (args : List Handle) (r : EventId) : Prop :=
  r < s.graph.next ∧ (s.graph.body r).isQuorum = true ∧ s.args r = args ∧
    (s.graph.body r).quorum = form.threshold args

/-- The event returned by a combinator call. -/
def Node.Built (s : World) (node : Node) : Prop :=
  match node.form, node.args with
  | .any, [] => ∃ r, node.result = some r ∧ s.Plain r
  | .all, [] => node.result = none
  | _, [h] => node.result = h
  | form, args => ∃ r, node.result = some r ∧ s.Sealed form args r

structure Inv (s : World) : Prop where
  linked : Linked (rankOf s.graph) [] [] s.outside s.graph
  counted : Counted s.args (fun n => s.explicit n = true) none none s.graph
  listening : Listening s.outside none s.graph
  below : s.graph.Below
  unheld : s.outside.Below s.graph.next
  explicit : ∀ n, s.explicit n = true → n < s.graph.next ∧ (s.graph.body n).triggered = true
  built : ∀ node ∈ s.nodes, node.Built s
  tidied : Tidied none s.graph

variable {s t : World} {g g' : Graph} {o o' : Outside} {n m : EventId} {c : CoroutineId}
  {d : DriverId} {home : CoroutineId → DriverId} {k : Caller} {late : Option EventId}

theorem Evolves.refl (g : Graph) : Evolves g g :=
  ⟨rfl, fun _ => rfl, fun _ => rfl, fun _ h => h, fun _ => List.Subperm.refl _, fun _ _ h => .inl h⟩

theorem Evolves.trans (first : Evolves g g') (second : Evolves g' g'') : Evolves g g'' where
  next := second.next.trans first.next
  kinds m := (second.kinds m).trans (first.kinds m)
  quorums m := (second.quorums m).trans (first.quorums m)
  triggered m h := second.triggered m (first.triggered m h)
  fewer m := (second.fewer m).trans (first.fewer m)
  posts d m queued := (second.posts d m queued).elim (first.posts d m) fun low => .inr (first.next ▸ low)

theorem Evolves.rank (evolves : Evolves g g') : rankOf g' = rankOf g := by
  funext n
  rw [rankOf, rankOf, evolves.kinds]

theorem Shrinks.evolves (shrinks : Shrinks x g g') : Evolves g g' where
  next := shrinks.next
  kinds := shrinks.isQuorum
  quorums := shrinks.quorum
  triggered m h := (shrinks.triggered m).trans h
  fewer := shrinks.fewer
  posts d m queued := .inl (by rwa [Queued, shrinks.inbox] at queued)

theorem Outside.Below.client (unheld : o.Below next) (owns : 0 < o.client n) : n < next := by
  by_contra high
  have := (unheld n (Nat.not_lt.mp high)).1
  omega

theorem Outside.Below.waiting (unheld : o.Below next) (waits : o.waiting c = some n) :
    n < next := by
  by_contra high
  exact (unheld n (Nat.not_lt.mp high)).2.1 c waits

theorem Outside.Below.visiting (unheld : o.Below next) (visits : o.visiting d = some n) :
    n < next := by
  by_contra high
  exact (unheld n (Nat.not_lt.mp high)).2.2 d visits

theorem Wakes.evolves (wakes : Wakes home k o late w w') (unheld : o.Below w.graph.next) :
    Evolves w.graph w'.graph where
  next := wakes.next
  kinds := wakes.kinds
  quorums := wakes.quorums
  triggered := wakes.triggered
  fewer := wakes.fewer
  posts d m queued := by
    refine (wakes.posts d m queued).imp id ?_
    rintro ⟨c, waits⟩
    exact unheld.waiting waits

theorem Relisted.evolves (relisted : Relisted g g') : Evolves g g' := by
  obtain ⟨next, inbox, body⟩ := relisted
  refine ⟨next, fun m => ?_, fun m => ?_, fun m h => ?_, fun m => ?_, fun d m queued => ?_⟩
  case refine_5 => exact .inl (by rwa [Queued, inbox] at queued)
  all_goals
    obtain ⟨_, eq, _⟩ := body m
    rw [eq]
  exact h

theorem ref_evolves (g : Graph) (n : EventId) : Evolves g (g.ref n) where
  next := rfl
  kinds m := by rw [ref_body_eq]
  quorums m := by rw [ref_body_eq]
  triggered m h := by rwa [ref_body_eq]
  fewer m := by rw [ref_body_eq]
  posts _ _ h := .inl h

theorem Relisted.alike (relisted : Relisted g g') (m : EventId) : Alike g g' m := by
  obtain ⟨next, _, body⟩ := relisted
  obtain ⟨_, mine, _⟩ := body m
  refine ⟨next, by rw [mine], by rw [mine], by rw [mine], fun e => ?_⟩
  obtain ⟨_, eq, _⟩ := body e
  rw [eq]

theorem inbox_alike (f : Inbox → Inbox) (m : EventId) : Alike g (g.modifyInbox d f) m :=
  ⟨rfl, rfl, rfl, rfl, fun _ => rfl⟩

/-- Queues may be filled with events that exist. -/
theorem inbox_evolves (f : Inbox → Inbox)
    (posts : ∀ d m, Queued (g.modifyInbox d' f) d m → Queued g d m ∨ m < g.next) :
    Evolves g (g.modifyInbox d' f) :=
  { Evolves.refl g with posts }

theorem Graph.Below.evolves (below : g.Below) (evolves : Evolves g g') : g'.Below where
  kinds n high := (evolves.kinds n).trans (below.kinds n (evolves.next ▸ high))
  members n high := by
    have fewer := evolves.fewer n
    rw [below.members n (evolves.next ▸ high)] at fewer
    exact List.subperm_nil.mp fewer
  noMember n q high member := below.noMember n q (evolves.next ▸ high) ((evolves.fewer q).subset member)
  noQueue n d high queued := by
    rw [evolves.next] at high
    exact (evolves.posts d n queued).elim (below.noQueue n d high) (Nat.not_lt.mpr high)

/-- Events keep their kinds, thresholds and argument positions. -/
theorem Node.Built.grows {node : Node} (built : node.Built s) (more : s.graph.next ≤ t.graph.next)
    (same : ∀ m, m < s.graph.next → (t.graph.body m).isQuorum = (s.graph.body m).isQuorum ∧
      (t.graph.body m).quorum = (s.graph.body m).quorum ∧ t.args m = s.args m) : node.Built t := by
  obtain ⟨form, args, result⟩ := node
  unfold Node.Built at built ⊢
  split at built
  · obtain ⟨r, returned, low, kind⟩ := built
    exact ⟨r, returned, low.trans_le more, (same r low).1.trans kind⟩
  · exact built
  · exact built
  · obtain ⟨r, returned, low, kind, args, quorum⟩ := built
    obtain ⟨kinds, quorums, listed⟩ := same r low
    exact ⟨r, returned, low.trans_le more, kinds.trans kind, listed.trans args, quorums.trans quorum⟩

/-- An operation that creates no event keeps the invariant, once its graph and
its handles are in order. -/
theorem Inv.evolves {x : EventId → Bool} (inv : Inv s) (evolves : Evolves s.graph g')
    (linked : Linked (rankOf s.graph) [] [] o' g')
    (counted : Counted s.args (fun n => x n = true) none none g') (listening : Listening o' none g')
    (unheld : o'.Below s.graph.next)
    (explicit : ∀ n, x n = true →
      s.explicit n = true ∨ n < s.graph.next ∧ (g'.body n).triggered = true)
    (tidied : Tidied none g') : Inv { s with graph := g', outside := o', explicit := x } where
  linked := by
    rw [evolves.rank]
    exact linked
  counted := counted
  listening := listening
  below := inv.below.evolves evolves
  unheld := by
    rw [evolves.next]
    exact unheld
  explicit n marked := by
    rw [evolves.next]
    rcases explicit n marked with before | now
    · exact ⟨(inv.explicit n before).1, evolves.triggered n (inv.explicit n before).2⟩
    · exact now
  built node member := (inv.built node member).grows (Nat.le_of_eq evolves.next.symm)
    fun m _ => ⟨evolves.kinds m, evolves.quorums m, rfl⟩
  tidied := tidied

theorem Graph.Below.deep (below : g.Below) (m : EventId) : rankOf g m ≤ g.next := by
  unfold rankOf
  split
  · rename_i quorum
    rcases Nat.lt_or_ge m g.next with low | high
    · exact low
    · rw [below.kinds m high] at quorum
      contradiction
  · exact Nat.zero_le _

theorem Inv.deep (inv : Inv s) (m : EventId) : rankOf s.graph m ≤ s.graph.next := inv.below.deep m

/-! The operations one by one. -/

theorem Outside.Below.give (unheld : o.Below next) (low : n < next) : (o.give n).Below next := by
  intro m high
  obtain ⟨client, rest⟩ := unheld m high
  refine ⟨?_, rest⟩
  have other : m ≠ n := Nat.ne_of_gt (low.trans_le high)
  simpa [Outside.give, other] using client

theorem Outside.Below.take (unheld : o.Below next) (n : EventId) : (o.take n).Below next := by
  intro m high
  obtain ⟨client, rest⟩ := unheld m high
  refine ⟨?_, rest⟩
  simp [Outside.take, client]

theorem Outside.Below.wait (unheld : o.Below next) (c : CoroutineId)
    (low : ∀ n, h = some n → n < next) : (o.wait c h).Below next := by
  intro m high
  obtain ⟨client, waiting, visiting⟩ := unheld m high
  refine ⟨client, fun c' => ?_, visiting⟩
  simp only [Outside.wait]
  split
  · exact fun same => absurd (low m same) (Nat.not_lt.mpr high)
  · exact waiting c'

theorem Outside.Below.visit (unheld : o.Below next) (d : DriverId)
    (low : ∀ n, h = some n → n < next) : (o.visit d h).Below next := by
  intro m high
  obtain ⟨client, waiting, visiting⟩ := unheld m high
  refine ⟨client, waiting, fun d' => ?_⟩
  simp only [Outside.visit]
  split
  · exact fun same => absurd (low m same) (Nat.not_lt.mpr high)
  · exact visiting d'

theorem ref_keeps_counted (counted : Counted args explicit x y g) (alive : 0 < (g.body n).refcount) :
    Counted args explicit x y (g.ref n) := by
  apply counted.update
  intro m
  refine ⟨_, (g.body m).freed, (g.body m).listeners, ref_body_eq g n m, fun _ _ live => ?_⟩
  by_cases same : m = n
  · exact same ▸ alive
  · simpa [same] using live

theorem step_copy (inv : Inv s) (owns : 0 < s.outside.client n) :
    Inv { s with graph := s.graph.ref n, outside := s.outside.give n } := by
  have alive := inv.linked.alive .client owns
  apply inv.evolves (ref_evolves s.graph n)
  · exact (ref_linked inv.linked n).give
  · exact ref_keeps_counted inv.counted alive
  · intro c m
    simp only [ref_body_eq]
    exact inv.listening c m
  · exact inv.unheld.give (inv.unheld.client owns)
  · exact fun n h => .inl h
  · exact ref_tidied (inv.tidied.hold alive)

theorem step_drop (inv : Inv s) (owns : 0 < s.outside.client n) :
    Inv { s with graph := s.graph.deref n, outside := s.outside.take n } := by
  obtain ⟨dropped, shrinks⟩ := deref_linked inv.deep (inv.linked.take owns)
  apply inv.evolves shrinks.evolves dropped (inv.counted.shrinks shrinks)
  · exact inv.listening.shrinks shrinks
  · exact inv.unheld.take n
  · exact fun n h => .inl h
  · exact inv.tidied.keeps (deref_keeps inv.deep (inv.linked.take owns))

theorem Listening.await (listening : Listening o none g) (idle : o.waiting c = none) (n : EventId) :
    Listening (o.wait c (some n)) none (g.await c n) := by
  intro c' m
  have before := listening c' m
  have body : ((g.await c n).body m).listeners =
      (g.body m).listeners ++ if m = n then [.coroutine c] else [] := by
    simp only [Graph.await, Graph.addListener_body, ref_body_eq]
    split <;> simp
  rw [body, List.count_append, before, Outside.wait]
  by_cases mine : c' = c
  · subst mine
    by_cases here : m = n
    · simp [idle, here]
    · simp [idle, here, Ne.symm here]
  · by_cases here : m = n <;> simp [here, mine, Ne.symm mine]

/-- A coroutine that has been taken off the list of the event it waits on. -/
theorem Listening.claim (listening : Listening o none g) (waits : o.waiting c = some n) :
    Listening o (some c) (g.removeListener n (.coroutine c)) := by
  intro c' m
  have before := listening c' m
  simp only [Graph.removeListener_body]
  by_cases mine : c' = c
  · subst mine
    by_cases here : m = n
    · subst here
      simp [count_swapErase, before, waits]
    · simp [here, before, waits, Ne.symm here]
  · split
    · simp [before, count_swapErase, Ne.symm mine]
    · simp [before, Ne.symm mine]

theorem Listening.unwait (listening : Listening o (some c) g) : Listening (o.wait c none) none g := by
  intro c' m
  rw [listening c' m]
  by_cases mine : c' = c
  · simp [Outside.wait, mine]
  · simp [Outside.wait, mine, Ne.symm mine]

theorem await_evolves (g : Graph) (c : CoroutineId) (n : EventId) : Evolves g (g.await c n) :=
  (ref_evolves g n).trans (addListener_relisted (g.ref n) n c).evolves

theorem step_await (inv : Inv s) (owns : 0 < s.outside.client n) (idle : s.outside.waiting c = none) :
    Inv { s with graph := s.graph.await c n, outside := s.outside.wait c (some n) } := by
  have alive := inv.linked.alive .client owns
  have relisted := addListener_relisted (s.graph.ref n) n c
  apply inv.evolves (await_evolves s.graph c n)
  · exact relisted.linked ((ref_linked inv.linked n).wait idle)
  · exact relisted.counted (ref_keeps_counted inv.counted alive)
  · exact inv.listening.await idle n
  · apply inv.unheld.wait
    rintro m ⟨⟩
    exact inv.unheld.client owns
  · exact fun n h => .inl h
  · exact (ref_tidied (inv.tidied.hold alive)).alike relisted.alike

theorem step_cancel (inv : Inv s) (waits : s.outside.waiting c = some n) :
    Inv { s with graph := s.graph.cancel c n, outside := s.outside.wait c none } := by
  have relisted := removeListener_relisted s.graph n c
  have removed := (relisted.linked inv.linked).unwait waits
  obtain ⟨dropped, shrinks⟩ := deref_linked (g := s.graph.removeListener n _) inv.deep removed
  apply inv.evolves (relisted.evolves.trans shrinks.evolves) dropped
  · exact (relisted.counted inv.counted).shrinks shrinks
  · exact (inv.listening.claim waits).unwait.shrinks shrinks
  · exact inv.unheld.wait c (fun _ h => nomatch h)
  · exact fun n h => .inl h
  · exact (inv.tidied.alike relisted.alike).keeps
      (deref_keeps (g := s.graph.removeListener n _) inv.deep removed)

theorem step_asap (inv : Inv s) (owns : 0 < s.outside.client n) (d : DriverId) :
    Inv { s with graph := s.graph.postAsap d n, outside := s.outside.take n } := by
  apply inv.evolves
  · apply inbox_evolves
    intro d' m queued
    simp only [Queued, Graph.modifyInbox_inbox] at queued ⊢
    split at queued
    · rename_i same
      subst same
      rcases queued with asap | migrate
      · rcases List.mem_append.mp asap with before | new
        · exact .inl (.inl before)
        · cases List.mem_singleton.mp new
          exact .inr (inv.unheld.client owns)
      · exact .inl (.inr migrate)
    · exact .inl queued
  · exact postAsap_linked (inv.linked.take owns) d
  · exact inv.counted.update fun m => ⟨_, _, _, rfl, fun _ _ live => live⟩
  · exact inv.listening
  · exact inv.unheld.take n
  · exact fun n h => .inl h
  · exact inv.tidied.alike fun m => inbox_alike _ m

theorem step_closeFd (inv : Inv s) (d : DriverId) (fd : Nat) :
    Inv { s with graph := s.graph.migrateClose d fd } := by
  have covered : ∀ h n, held (s.graph.migrateClose d fd) s.outside [] n h =
      held s.graph s.outside [] n h := by
    intro h n
    cases h <;> first | rfl | skip
    all_goals
      rename_i d'
      by_cases same : d' = d <;> simp [held, Graph.migrateClose, same]
  apply inv.evolves
  · apply inbox_evolves
    intro d' m queued
    simp only [Queued, Graph.modifyInbox_inbox] at queued ⊢
    split at queued
    · rename_i same
      subst same
      exact .inl queued
    · exact .inl queued
  · apply inbox_linked inv.linked
    intro n
    exact (inv.linked.covered n).congr fun h => covered h n
  · exact inv.counted.update fun m => ⟨_, _, _, rfl, fun _ _ live => live⟩
  · exact inv.listening
  · exact inv.unheld
  · exact fun n h => .inl h
  · exact inv.tidied.alike fun m => inbox_alike _ m

theorem step_migrate (inv : Inv s) (d : DriverId) :
    Inv { s with graph := s.graph.finishMigrate d } := by
  apply inv.evolves
  · apply inbox_evolves
    intro d' m queued
    simp only [Queued, Graph.modifyInbox_inbox] at queued ⊢
    split at queued
    · rename_i same
      subst same
      exact .inl (by simpa using queued)
    · exact .inl queued
  · exact finishMigrate_linked inv.linked d
  · exact inv.counted.update fun m => ⟨_, _, _, rfl, fun _ _ live => live⟩
  · exact inv.listening
  · exact inv.unheld
  · exact fun n h => .inl h
  · exact inv.tidied.alike fun m => inbox_alike _ m

theorem step_popAsap (inv : Inv s) (idle : s.outside.visiting d = none)
    (front : (s.graph.inbox d).asap = n :: rest) :
    Inv { s with graph := s.graph.popAsap d, outside := s.outside.visit d (some n) } := by
  have listed : n ∈ (s.graph.inbox d).asap := front ▸ List.mem_cons_self
  apply inv.evolves
  · apply inbox_evolves
    intro d' m queued
    simp only [Queued, Graph.modifyInbox_inbox] at queued ⊢
    split at queued
    · rename_i same
      subst same
      exact .inl (queued.imp List.mem_of_mem_tail id)
    · exact .inl queued
  · exact (popAsap_linked inv.linked front).visit idle
  · exact inv.counted.update fun m => ⟨_, _, _, rfl, fun _ _ live => live⟩
  · exact inv.listening
  · apply inv.unheld.visit
    rintro m ⟨⟩
    by_contra high
    exact inv.below.noQueue n d (Nat.not_lt.mp high) (.inl listed)
  · exact fun n h => .inl h
  · exact inv.tidied.alike fun m => inbox_alike _ m

theorem step_takeHandle (inv : Inv s) (owns : 0 < s.outside.client n)
    (idle : s.outside.visiting d = none) :
    Inv { s with outside := (s.outside.take n).visit d (some n) } := by
  apply inv.evolves (Evolves.refl s.graph)
  · exact (inv.linked.take owns).visit idle
  · exact inv.counted
  · exact inv.listening
  · apply (inv.unheld.take n).visit
    rintro m ⟨⟩
    exact inv.unheld.client owns
  · exact fun n h => .inl h
  · exact inv.tidied

/-! Triggering. -/

theorem Counted.mark (counted : Counted args explicit x y g) (more : ∀ q, explicit q → explicit' q) :
    Counted args explicit' x y g :=
  { counted with reached := fun q fired => (counted.reached q fired).imp (more q) id }

theorem mark_cases (marked : s.mark n m = true) : m = n ∨ s.explicit m = true := by
  simpa [World.mark] using marked

theorem Inv.marked (inv : Inv s) (n : EventId) :
    Counted s.args (fun m => s.mark n m = true) none none s.graph :=
  inv.counted.mark fun q h => by simp [World.mark, h]

theorem claims_none : Claims home k none := fun _ claimed => nomatch claimed

/-- Triggering an untriggered event. -/
theorem trigger_settles (inv : Inv s) (home : CoroutineId → DriverId) (k : Caller)
    (fresh : (s.graph.body n).triggered = false) :
    Settles (rankOf s.graph) [] [] s.args (fun m => s.mark n m = true) home k s.outside (some n)
      ⟨s.graph, none⟩ (triggerUnlock home k ⟨s.graph, none⟩ n) ∧
    ((triggerUnlock home k ⟨s.graph, none⟩ n).graph.body n).triggered = true := by
  have why : Due s.args (fun m => s.mark n m = true) s.graph n := .inl (by simp [World.mark])
  exact triggerUnlock_settles inv.deep inv.linked (inv.marked n).weaken fresh why inv.listening
    claims_none

theorem trigger_unclaimed (wakes : Wakes home k o late w w') (unclaimed : w.coh = none)
    (nobody : k.drv = none) : w'.coh = none := by
  cases claimed : w'.coh with
  | none => rfl
  | some c =>
      rcases wakes.claims c claimed with before | ⟨mine, _⟩
      · rw [unclaimed] at before
        contradiction
      · rw [nobody] at mine
        contradiction

theorem step_trigger (inv : Inv s) (owns : 0 < s.outside.client n) (home : CoroutineId → DriverId)
    (current : DriverId) :
    Inv { s with graph := s.graph.trigger home current n, explicit := s.mark n } := by
  have low := inv.unheld.client owns
  unfold Graph.trigger
  cases fired : (s.graph.body n).triggered with
  | true =>
      apply inv.evolves (Evolves.refl s.graph) inv.linked (inv.marked n) inv.listening inv.unheld
      · intro m marked
        rcases mark_cases marked with rfl | before
        · exact .inr ⟨low, fired⟩
        · exact .inl before
      · exact inv.tidied
  | false =>
      obtain ⟨settles, set⟩ := trigger_settles inv home ⟨none, current⟩ fired
      have unclaimed := trigger_unclaimed settles.wakes rfl rfl
      have listening := settles.wakes.listening
      rw [unclaimed] at listening
      apply inv.evolves (settles.wakes.evolves inv.unheld) settles.linked settles.counted listening
        inv.unheld
      · intro m marked
        rcases mark_cases marked with rfl | before
        · exact .inr ⟨low, set⟩
        · exact .inl before
      · exact settles.tidied (inv.tidied.hold (inv.linked.alive .client owns))

/-- One `driver_trigger` call, with the coroutine it returns. -/
structure Visits (home : CoroutineId → DriverId) (d : DriverId) (s : World) (n : EventId) (w : Wake) :
    Prop where
  evolves : Evolves s.graph w.graph
  linked : Linked (rankOf s.graph) [] [] s.outside w.graph
  counted : Counted s.args (fun m => s.mark n m = true) none none w.graph
  listening : Listening s.outside w.coh w.graph
  claims : ∀ c, w.coh = some c → home c = d ∧
    ∃ m, s.outside.waiting c = some m ∧ (w.graph.body m).triggered = true
  triggered : (w.graph.body n).triggered = true
  tidied : 0 < (s.graph.body n).refcount → Tidied none w.graph

theorem driverTrigger_visits (inv : Inv s) (home : CoroutineId → DriverId) (d : DriverId)
    (n : EventId) : Visits home d s n (s.graph.driverTrigger home d n) := by
  unfold Graph.driverTrigger
  cases fired : (s.graph.body n).triggered with
  | false =>
      obtain ⟨settles, set⟩ := trigger_settles inv home ⟨some d, d⟩ fired
      refine ⟨settles.wakes.evolves inv.unheld, settles.linked, settles.counted,
        settles.wakes.listening, fun c claimed => ?_, set,
        fun live => settles.tidied (inv.tidied.hold live)⟩
      rcases settles.wakes.claims c claimed with before | ⟨mine, m, waits, newly⟩
      · contradiction
      · exact ⟨(Option.some.inj mine).symm, m, waits, newly.2⟩
  | true =>
      simp only [Bool.not_true, Bool.false_eq_true, if_false]
      split
      · rename_i c found
        have listed := List.mem_of_find?_eq_some found
        have mine : home c = d := by simpa [Listener.isOn] using List.find?_some found
        have waits := inv.listening.waits listed
        have relisted := removeListener_relisted s.graph n c
        refine ⟨relisted.evolves, relisted.linked inv.linked, relisted.counted (inv.marked n),
          inv.listening.claim waits, ?_, relisted.evolves.triggered n fired,
          fun _ => inv.tidied.alike relisted.alike⟩
        rintro c' ⟨⟩
        exact ⟨mine, n, waits, relisted.evolves.triggered n fired⟩
      · exact ⟨Evolves.refl _, inv.linked, inv.marked n, inv.listening, (fun _ h => nomatch h), fired,
          fun _ => inv.tidied⟩

theorem step_driverTrigger (inv : Inv s) (home : CoroutineId → DriverId)
    (visits : s.outside.visiting d = some n) : Inv (s.visited home d n) := by
  have low := inv.unheld.visiting visits
  have visit := driverTrigger_visits inv home d n
  have tidied := visit.tidied (inv.linked.alive (.visit d) (by simp [held, visits]))
  have explicit : ∀ m, s.mark n m = true → s.explicit m = true ∨
      m < s.graph.next ∧ ((s.graph.driverTrigger home d n).graph.body m).triggered = true := by
    intro m marked
    rcases mark_cases marked with rfl | before
    · exact .inr ⟨low, visit.triggered⟩
    · exact .inl before
  unfold World.visited
  simp only
  split
  · rename_i unclaimed
    have deep : ∀ m, rankOf s.graph m ≤ (s.graph.driverTrigger home d n).graph.next := by
      rw [visit.evolves.next]
      exact inv.deep
    obtain ⟨dropped, shrinks⟩ := deref_linked deep (visit.linked.unvisit visits)
    have listening := visit.listening
    rw [unclaimed] at listening
    apply inv.evolves (visit.evolves.trans shrinks.evolves) dropped
    · exact visit.counted.shrinks shrinks
    · exact listening.shrinks shrinks
    · exact inv.unheld.visit d (by rintro _ ⟨⟩)
    · intro m marked
      rw [shrinks.triggered]
      exact explicit m marked
    · exact tidied.keeps (deref_keeps deep (visit.linked.unvisit visits))
  · rename_i c claimed
    obtain ⟨_, m, waits, _⟩ := visit.claims c claimed
    have listening := visit.listening
    rw [claimed] at listening
    rw [waits]
    apply inv.evolves visit.evolves
    · exact (visit.linked.unwait waits).give
    · exact visit.counted
    · exact listening.unwait
    · exact (inv.unheld.give (inv.unheld.waiting waits)).wait c (by rintro _ ⟨⟩)
    · exact explicit
    · exact tidied

end Cotamer.Event
