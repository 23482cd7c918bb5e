import Cotamer.Event.Counted

/-! What one call of `trigger_unlock` does to the whole graph: the threshold
formula holds again, and every coroutine on an event that triggered is claimed,
posted to its home driver, or left to the driver that is triggering. -/
namespace Cotamer.Event
open SwapVector References

variable {rank : EventId → Nat} {P : List (EventId × EventId)} {flight : List EventId}
  {o : Outside} {g g' : Graph} {w w' w'' : Wake} {n q m : EventId} {args : EventId → List Handle}
  {explicit : EventId → Prop} {home : CoroutineId → DriverId} {k : Caller}
  {d d' : DriverId}

/-- `m` triggered between the two graphs. -/
def Newly (g g' : Graph) (m : EventId) : Prop :=
  (g.body m).triggered = false ∧ (g'.body m).triggered = true

/-- Some queue of driver `d` holds the event. -/
def Queued (g : Graph) (d : DriverId) (m : EventId) : Prop :=
  m ∈ (g.inbox d).asap ∨ m ∈ (g.inbox d).migrate

/-- The effect on coroutines and queues. Event `late` has triggered and is yet to
be posted. -/
structure Wakes (home : CoroutineId → DriverId) (k : Caller) (o : Outside) (late : Option EventId)
    (w w' : Wake) : Prop where
  next : w'.graph.next = w.graph.next
  kinds : ∀ m, (w'.graph.body m).isQuorum = (w.graph.body m).isQuorum
  quorums : ∀ m, (w'.graph.body m).quorum = (w.graph.body m).quorum
  triggered : ∀ m, (w.graph.body m).triggered = true → (w'.graph.body m).triggered = true
  listening : Listening o w'.coh w'.graph
  keeps : w.coh ≠ none → w'.coh = w.coh
  claims : ∀ c, w'.coh = some c → w.coh = some c ∨
    k.drv = some (home c) ∧ ∃ m, o.waiting c = some m ∧ Newly w.graph w'.graph m
  posted : ∀ c m, Newly w.graph w'.graph m → o.waiting c = some m →
    if k.drv = some (home c) then w'.coh ≠ none else late ≠ some m → Queued w'.graph (home c) m
  queues : ∀ d m, Queued w.graph d m → Queued w'.graph d m
  posts : ∀ d m, Queued w'.graph d m → Queued w.graph d m ∨ ∃ c, o.waiting c = some m
  fewer : ∀ m, (w'.graph.body m).members.Subperm (w.graph.body m).members
  apart : ∀ d, d ≠ k.poster → (w'.graph.inbox d).asap = (w.graph.inbox d).asap
  grows : ∀ d, (w.graph.inbox d).asap <+: (w'.graph.inbox d).asap
  flagged : ∀ d, (w.graph.inbox d).Flagged → (w'.graph.inbox d).Flagged

theorem Newly.of_kept (kept : (g.body m).triggered = true → (g'.body m).triggered = true)
    (newly : Newly g' g'' m) : Newly g g'' m := by
  refine ⟨?_, newly.2⟩
  cases before : (g.body m).triggered with
  | false => rfl
  | true => exact (kept before).symm.trans newly.1

theorem not_newly (same : (g'.body m).triggered = (g.body m).triggered) : ¬Newly g g' m := by
  rintro ⟨before, after⟩
  rw [same, before] at after
  exact Bool.false_ne_true after

theorem Wakes.refl (listening : Listening o w.coh w.graph) : Wakes home k o late w w where
  next := rfl
  kinds _ := rfl
  quorums _ := rfl
  triggered _ h := h
  listening := listening
  keeps _ := rfl
  claims _ h := .inl h
  posted _ _ newly := absurd newly (not_newly rfl)
  queues _ _ h := h
  posts _ _ h := .inl h
  fewer _ := List.Subperm.refl _
  apart _ _ := rfl
  grows _ := List.prefix_refl _
  flagged _ h := h

theorem Wakes.trans (first : Wakes home k o late w w') (second : Wakes home k o late w' w'') :
    Wakes home k o late w w'' where
  next := second.next.trans first.next
  kinds m := (second.kinds m).trans (first.kinds m)
  quorums m := (second.quorums m).trans (first.quorums m)
  triggered m h := second.triggered m (first.triggered m h)
  listening := second.listening
  keeps taken := by
    have same := first.keeps taken
    rw [second.keeps (same ▸ taken), same]
  claims c claimed := by
    rcases second.claims c claimed with before | ⟨mine, m, waits, newly⟩
    · rcases first.claims c before with before | ⟨mine, m, waits, newly⟩
      · exact .inl before
      · exact .inr ⟨mine, m, waits, newly.1, second.triggered m newly.2⟩
    · exact .inr ⟨mine, m, waits, newly.of_kept (first.triggered m)⟩
  posted c m newly waits := by
    cases middle : (w'.graph.body m).triggered with
    | true =>
        have posted := first.posted c m ⟨newly.1, middle⟩ waits
        split
        · rename_i mine
          rw [if_pos mine] at posted
          rw [second.keeps posted]
          exact posted
        · rename_i other
          rw [if_neg other] at posted
          exact fun now => second.queues _ _ (posted now)
    | false => exact second.posted c m ⟨middle, newly.2⟩ waits
  queues d m queued := second.queues d m (first.queues d m queued)
  posts d m queued := (second.posts d m queued).elim (first.posts d m) .inr
  fewer m := (second.fewer m).trans (first.fewer m)
  apart d other := (second.apart d other).trans (first.apart d other)
  grows d := (first.grows d).trans (second.grows d)
  flagged d h := second.flagged d (first.flagged d h)

theorem Wakes.weaken (wakes : Wakes home k o none w w') : Wakes home k o late w w' := by
  refine { wakes with posted := fun c m newly waits => ?_ }
  have posted := wakes.posted c m newly waits
  split
  · rename_i mine
    rwa [if_pos mine] at posted
  · rename_i other
    rw [if_neg other] at posted
    exact fun _ => posted (fun h => nomatch h)

/-- A driver claims only its own coroutines. -/
def Claims (home : CoroutineId → DriverId) (k : Caller) (coh : Option CoroutineId) : Prop :=
  ∀ c, coh = some c → k.drv = some (home c)

theorem Wakes.own (wakes : Wakes home k o late w w') (own : Claims home k w.coh) :
    Claims home k w'.coh :=
  fun c claimed => (wakes.claims c claimed).elim (own c) And.left

/-- Dropping handles wakes nobody. -/
theorem Shrinks.wakes (shrinks : Shrinks x g g') (listening : Listening o coh g) :
    Wakes home k o late ⟨g, coh⟩ ⟨g', coh⟩ where
  next := shrinks.next
  kinds := shrinks.isQuorum
  quorums := shrinks.quorum
  triggered m h := (shrinks.triggered m).trans h
  listening := listening.shrinks shrinks
  keeps _ := rfl
  claims _ h := .inl h
  posted _ m newly := absurd newly (not_newly (shrinks.triggered m))
  queues d m queued := by
    rw [Queued, shrinks.inbox]
    exact queued
  posts d m queued := by
    rw [Queued, shrinks.inbox] at queued
    exact .inl queued
  fewer := shrinks.fewer
  apart d _ := by rw [shrinks.inbox]
  grows d := by rw [shrinks.inbox]
  flagged d h := by rwa [shrinks.inbox]

/-! The scan of the listeners. -/

def quorumsOf (ls : List Listener) : List EventId :=
  ls.filterMap fun | .quorum q => some q | .coroutine _ => none

theorem count_quorumsOf (ls : List Listener) (q : EventId) :
    (quorumsOf ls).count q = ls.count (.quorum q) := by
  induction ls with
  | nil => rfl
  | cons l ls ih =>
      cases l with
      | coroutine c => simpa [quorumsOf] using ih
      | quorum q' => simpa [quorumsOf, List.count_cons] using ih

def taken (coh : Option CoroutineId) (c : CoroutineId) : Nat := if coh = some c then 1 else 0

/-- What a scan of the listeners `ls` has done when it has got to `s'`. -/
structure Scanned (home : CoroutineId → DriverId) (k : Caller) (ls : List Listener) (s s' : Scan) :
    Prop where
  quorums : s'.quorums = s.quorums ++ quorumsOf ls
  noQuorum : ∀ q, s'.kept.count (.quorum q) = s.kept.count (.quorum q)
  counts : ∀ c, s'.kept.count (.coroutine c) + taken s'.coh c =
    s.kept.count (.coroutine c) + ls.count (.coroutine c) + taken s.coh c
  keeps : s.coh ≠ none → s'.coh = s.coh
  claims : ∀ c, s'.coh = some c → s.coh = some c ∨ k.drv = some (home c) ∧ .coroutine c ∈ ls
  posted : ∀ c, .coroutine c ∈ ls →
    if k.drv = some (home c) then s'.coh ≠ none else home c ∈ s'.drivers
  drivers : ∀ d, d ∈ s.drivers → d ∈ s'.drivers
  others : ∀ d, d ∈ s'.drivers → d ∈ s.drivers ∨
    k.drv ≠ some d ∧ ∃ c, .coroutine c ∈ ls ∧ home c = d

theorem Scanned.nil (s : Scan) : Scanned home k [] s s := by
  constructor <;> simp +contextual [quorumsOf]

/-- One listener in front of a scan. -/
theorem Scanned.cons (step : Scanned home k [l] s s') (rest : Scanned home k ls s' s'') :
    Scanned home k (l :: ls) s s'' where
  quorums := by
    rw [rest.quorums, step.quorums, List.append_assoc, quorumsOf, quorumsOf, quorumsOf,
      ← List.filterMap_append, List.singleton_append]
  noQuorum q := (rest.noQuorum q).trans (step.noQuorum q)
  counts c := by
    have front := step.counts c
    have back := rest.counts c
    rw [← List.singleton_append, List.count_append]
    omega
  keeps taken := by
    have same := step.keeps taken
    rw [rest.keeps (same ▸ taken), same]
  claims c claimed := by
    rcases rest.claims c claimed with before | ⟨mine, listed⟩
    · rcases step.claims c before with before | ⟨mine, listed⟩
      · exact .inl before
      · exact .inr ⟨mine, List.mem_cons.mpr (.inl (List.mem_singleton.mp listed))⟩
    · exact .inr ⟨mine, List.mem_cons_of_mem _ listed⟩
  posted c listed := by
    rcases List.mem_cons.mp listed with rfl | later
    · have posted := step.posted c List.mem_cons_self
      split
      · rename_i mine
        rw [if_pos mine] at posted
        rw [rest.keeps posted]
        exact posted
      · rename_i other
        rw [if_neg other] at posted
        exact rest.drivers _ posted
    · exact rest.posted c later
  drivers d listed := rest.drivers d (step.drivers d listed)
  others d listed := by
    rcases rest.others d listed with before | ⟨other, c, inside, same⟩
    · refine (step.others d before).imp id ?_
      rintro ⟨other, c, inside, same⟩
      exact ⟨other, c, List.mem_cons.mpr (.inl (List.mem_singleton.mp inside)), same⟩
    · exact .inr ⟨other, c, List.mem_cons_of_mem _ inside, same⟩

theorem count_single (c c' : CoroutineId) :
    [Listener.coroutine c].count (.coroutine c') = if c = c' then 1 else 0 := by
  simp [List.count_cons]

theorem scanned_one (l : Listener) (s : Scan) : Scanned home k [l] s (scanListener home k s l) := by
  cases l with
  | quorum q => constructor <;> simp +contextual [quorumsOf, scanListener]
  | coroutine c =>
      by_cases mine : k.drv = some (home c)
      · cases coh : s.coh with
        | none =>
            constructor <;> simp +contextual [quorumsOf, scanListener, mine, coh, taken, count_single]
        | some c' =>
            constructor <;> simp +contextual [quorumsOf, scanListener, mine, coh]
      · have added : ∀ d, d ∈ (scanListener home k s (.coroutine c)).drivers ↔
            d ∈ s.drivers ∨ d = home c := by
          intro d
          simp only [scanListener, if_neg mine]
          split
          · rename_i listed
            exact ⟨.inl, fun h => h.elim id fun same => same ▸ listed⟩
          · simp
        constructor
        · simp [quorumsOf, scanListener, mine]
        · simp [scanListener, mine]
        · intro c'
          simp [scanListener, mine, List.count_append, count_single]
        · simp [scanListener, mine]
        · intro c' claimed
          simpa [scanListener, mine] using Or.inl claimed
        · intro c' listed
          cases List.mem_singleton.mp listed
          rw [if_neg mine]
          exact (added _).mpr (.inr rfl)
        · exact fun d listed => (added d).mpr (.inl listed)
        · intro d listed
          rcases (added d).mp listed with before | rfl
          · exact .inl before
          · exact .inr ⟨mine, c, List.mem_singleton_self _, rfl⟩

theorem scanned (ls : List Listener) (s : Scan) :
    Scanned home k ls s (ls.foldl (scanListener home k) s) := by
  induction ls generalizing s with
  | nil => exact Scanned.nil s
  | cons l ls ih => exact (scanned_one l s).cons (ih _)

/-! Informing one quorum. -/

/-- `countMember` before the handle is dropped. -/
def Graph.count (g : Graph) (e q : EventId) : Graph :=
  g.modify q fun b =>
    { b with triggeredMembers := b.triggeredMembers + 1, members := swapErase e b.members }

theorem count_body (g : Graph) (e q m : EventId) : (g.count e q).body m = { g.body m with
    triggeredMembers := (g.body m).triggeredMembers + if m = q then 1 else 0
    members := if m = q then swapErase e (g.body m).members else (g.body m).members } := by
  simp only [Graph.count, Graph.modify_body]
  split <;> rfl

theorem Linked.member (linked : Linked rank ((n, q) :: P) flight o g) :
    n ∈ (g.body q).members := by
  have counted := linked.link n q
  rw [linked.pending n q List.mem_cons_self, if_pos rfl, List.count_cons_self] at counted
  exact List.count_pos_iff.mp (by omega)

theorem count_members (member : e ∈ (g.body q).members) (m n : EventId) :
    ((g.count e q).body m).members.count n + (if m = q ∧ n = e then 1 else 0) =
      (g.body m).members.count n := by
  rw [count_body]
  by_cases same : m = q
  · subst same
    have positive := List.count_pos_iff.mpr member
    simp only [if_true, true_and, count_swapErase, eq_comm (a := e)]
    split
    · rename_i same
      subst same
      omega
    · omega
  · simp [same]

theorem count_linked (linked : Linked rank ((n, q) :: P) flight o g) :
    Linked rank P (n :: flight) o (g.count n q) := by
  have members := count_members linked.member
  have triggered : ∀ m, ((g.count n q).body m).triggered = (g.body m).triggered := by
    intro m
    rw [count_body]
  have listeners : ∀ m, ((g.count n q).body m).listeners = (g.body m).listeners := by
    intro m
    rw [count_body]
  refine ⟨fun e q' => ?_, fun e q' fired => ?_, fun e q' listed => ?_, fun e q' member => ?_,
    fun e => ?_⟩
  · have before := linked.link e q'
    have left := members q' e
    rw [triggered, listeners]
    cases fired : (g.body e).triggered with
    | true =>
        simp only [fired, if_true, List.count_cons, beq_iff_eq, Prod.mk.injEq] at before ⊢
        simp only [eq_comm (a := n), eq_comm (a := q), and_comm (a := e = n)] at before
        omega
    | false =>
        have other : e ≠ n := by
          rintro rfl
          rw [linked.pending e q List.mem_cons_self] at fired
          contradiction
        simp only [fired, Bool.false_eq_true, if_false] at before ⊢
        simp only [other, and_false, if_false] at left
        omega
  · rw [listeners]
    exact linked.silent e q' (triggered e ▸ fired)
  · rw [triggered]
    exact linked.pending e q' (List.mem_cons_of_mem _ listed)
  · have counted := List.count_pos_iff.mpr member
    have left := members q' e
    rw [show ((g.count n q).body q').isQuorum = _ from by rw [count_body]]
    exact linked.ranked e q' (List.count_pos_iff.mp (by omega))
  · have kept : ((g.count n q).body e).refcount = (g.body e).refcount := by
      rw [count_body]
    rw [kept]
    by_cases same : e = n
    · subst same
      apply (linked.covered e).move (.quorum q) .flight (k := 1) _ (by simp)
      · have := members q e
        simp only [and_self, if_true] at this
        exact this
      · simp [held]
      · intro h notQ notFlight
        cases h <;> first | exact absurd rfl notFlight | rfl | skip
        rename_i q'
        have other : q' ≠ q := fun same => notQ (same ▸ rfl)
        simpa [held, other] using members q' e
    · apply (linked.covered e).congr
      intro h
      cases h <;> first | rfl | skip
      · simp [held, Ne.symm same]
      · rename_i q'
        simpa [held, same] using members q' e

/-- Counting a triggered member moves it from one side of the sum to the other. -/
theorem count_counted (counted : Counted args explicit none none g)
    (member : n ∈ (g.body q).members) (fired : (g.body n).triggered = true) :
    Counted args explicit none (some q) (g.count n q) := by
  have members := count_members member
  have body := count_body g n q
  have triggered : ∀ m, ((g.count n q).body m).triggered = (g.body m).triggered := by
    intro m
    rw [body]
  have sum : ∀ m, ((g.count n q).body m).triggeredMembers + firedMembers (g.count n q) m =
      (g.body m).triggeredMembers + firedMembers g m := by
    intro m
    simp only [firedMembers, body]
    by_cases same : m = q
    · subst same
      have erased := List.countP_erase (fun e => (g.body e).triggered) (g.body m).members n
      have positive : 0 < (g.body m).members.countP fun e => (g.body e).triggered :=
        List.countP_pos_iff.mpr ⟨n, member, fired⟩
      simp only [member, fired, and_self, if_true] at erased
      simp only [if_true, (swapErase_perm n (g.body m).members).countP_eq, erased]
      omega
    · simp [same]
  refine ⟨fun m => ?_, fun m e => ?_, fun m up => ?_, fun m _ quorum live waiting => ?_,
    fun m ne quorum live waiting => ?_⟩
  · rw [sum, triggeredArgs_congr triggered]
    exact counted.atMost m
  · have := members m e
    have := counted.among m e
    omega
  · rw [triggered] at up
    rw [Due, triggeredArgs_congr triggered, body]
    exact counted.reached m up
  · rw [sum, triggeredArgs_congr triggered]
    rw [body] at quorum live waiting
    obtain ⟨same, rest⟩ := counted.exactly m (by rintro ⟨⟩) quorum live waiting
    refine ⟨same, fun e still => ?_⟩
    rw [triggered] at still
    have other : e ≠ n := by
      rintro rfl
      rw [fired] at still
      contradiction
    have left := members m e
    simp only [other, and_false, if_false, Nat.add_zero] at left
    rw [left]
    exact rest e still
  · have other : m ≠ q := fun same => ne (congrArg some same.symm)
    rw [body] at quorum live waiting ⊢
    simp only [other, if_false, Nat.add_zero]
    exact counted.below m (by rintro ⟨⟩) quorum live waiting

theorem count_wakes (listening : Listening o coh g) :
    Wakes home k o late ⟨g, coh⟩ ⟨g.count n q, coh⟩ where
  next := rfl
  kinds m := by simp only [count_body]
  quorums m := by simp only [count_body]
  triggered m h := by simpa only [count_body] using h
  listening c m := by
    simp only [count_body]
    exact listening c m
  keeps _ := rfl
  claims _ h := .inl h
  posted _ m newly := absurd newly (not_newly (by simp only [count_body]))
  queues _ _ h := h
  posts _ _ h := .inl h
  fewer m := by
    simp only [count_body]
    split
    · exact (swapErase_perm _ _).subperm.trans (List.erase_subperm _ _)
    · exact List.Subperm.refl _
  apart _ _ := rfl
  grows _ := List.prefix_refl _
  flagged _ h := h

theorem count_alike (other : m ≠ q) : Alike g (g.count n q) m := by
  refine ⟨rfl, ?_, ?_, ?_, fun e => ?_⟩
  case refine_4 => rw [count_body]
  all_goals simp [count_body, other]

/-- A counted member is gone from a quorum that has not been deleted. -/
theorem countMember_tidied (deep : ∀ m, rank m ≤ g.next)
    (linked : Linked rank ((n, q) :: P) flight o g) (tidied : Tidied none g) :
    Tidied (some q) (g.countMember n q) := by
  have member := linked.member
  have counted := count_linked linked
  have tidy := tidied.tidy q
  have freed : (g.body q).freed = 0 := by
    rcases Nat.eq_zero_or_pos (g.body q).freed with zero | positive
    · exact zero
    · rw [(tidy.gone positive).2] at member
      exact nomatch member
  have triggered : ∀ m, ((g.count n q).body m).triggered = (g.body m).triggered := by
    intro m
    rw [count_body]
  have fewer : ((g.count n q).body q).members ⊆ (g.body q).members := by
    rw [count_body]
    simp only [if_true]
    exact fun e inside => mem_of_mem_swapErase inside
  have tidy' : Tidy (g.count n q) q := tidy.fewer (by rwa [count_body]) triggered fewer
  have keeps := fun m => deref_keeps (g := g.count n q) deep counted m
  have above : ((g.count n q).deref n).body q = (g.count n q).body q :=
    deref_above (g := g.count n q) deep counted (linked.ranked n q member).1
  simp only [Graph.countMember, if_pos member]
  change Tidied (some q) ((g.count n q).deref n)
  have shrinks := (deref_linked (g := g.count n q) deep counted).2
  refine ⟨fun m => ?_, fun m other => ?_, fun m same => ?_⟩
  · by_cases same : m = q
    · subst same
      exact (keeps m tidy').1
    · exact (keeps m ((count_alike same).keeps (tidied.tidy m)).1).1
  · have other : m ≠ q := fun same => other (congrArg some same.symm)
    obtain ⟨tidy, collected⟩ := (count_alike (n := n) other).keeps (tidied.tidy m)
    exact (keeps m tidy).2 (collected (tidied.collected m (fun h => nomatch h)))
  · obtain rfl := Option.some.inj same
    have eq := count_body g n q q
    rw [above]
    refine ⟨by rwa [eq], fun dead => ⟨?_, fun e inside => ?_⟩⟩
    · rw [eq]
      exact (linked.ranked n q member).2
    · rw [eq] at dead
      rw [shrinks.triggered, triggered]
      rw [above] at inside
      rcases tidied.collected q (fun h => nomatch h) dead with deleted | ⟨spent, _⟩
      · exact absurd freed (Nat.ne_of_gt deleted)
      · exact spent e (fewer inside)

/-- Informing a quorum of one triggered member. -/
theorem countMember_spec (deep : ∀ m, rank m ≤ g.next)
    (linked : Linked rank ((n, q) :: P) flight o g) (counted : Counted args explicit none none g)
    (listening : Listening o coh g) : Linked rank P flight o (g.countMember n q) ∧
      Counted args explicit none (some q) (g.countMember n q) ∧
      Wakes home k o late ⟨g, coh⟩ ⟨g.countMember n q, coh⟩ := by
  have member := linked.member
  have fired := linked.pending n q List.mem_cons_self
  simp only [Graph.countMember, if_pos member]
  obtain ⟨dropped, shrinks⟩ := deref_linked (g := g.count n q) deep (count_linked linked)
  have wakes : Wakes home k o late ⟨g, coh⟩ ⟨g.count n q, coh⟩ := count_wakes listening
  exact ⟨dropped, (count_counted counted member fired).shrinks shrinks,
    wakes.trans (shrinks.wakes wakes.listening)⟩

/-! Posting the event to the drivers. -/

theorem refBy_linked (linked : Linked rank P flight o g) (n : EventId) (times : Nat) :
    Linked rank P (List.replicate times n ++ flight) o (g.refBy n times) := by
  have same : ∀ m, ((g.refBy n times).body m).members = (g.body m).members ∧
      ((g.refBy n times).body m).listeners = (g.body m).listeners ∧
      ((g.refBy n times).body m).triggered = (g.body m).triggered ∧
      ((g.refBy n times).body m).isQuorum = (g.body m).isQuorum := by
    intro m
    simp only [Graph.refBy, Graph.modify_body]
    split <;> exact ⟨rfl, rfl, rfl, rfl⟩
  apply linked.update same
  intro m
  rw [held_congr (fun q => (same q).1) (by rfl)]
  simp only [Graph.refBy, Graph.modify_body]
  split
  · rename_i same
    subst same
    apply (linked.covered m).gain .flight
    · intro h ne
      cases h <;> first | exact absurd rfl ne | rfl
    · simp [held, Nat.add_comm]
  · rename_i ne
    apply (linked.covered m).congr
    intro h
    cases h <;> first | rfl | simp [held, List.count_replicate, Ne.symm ne]

theorem refBy_alike (other : ¬(m = n ∧ 0 < times)) : Alike g (g.refBy n times) m := by
  refine ⟨rfl, ?_, ?_, ?_, fun e => ?_⟩
  case refine_1 =>
    simp only [Graph.refBy, Graph.modify_body]
    split
    · rename_i same
      have none : times = 0 := Nat.eq_zero_of_not_pos fun some => other ⟨same, some⟩
      simp [none]
    · rfl
  all_goals
    simp only [Graph.refBy, Graph.modify_body]
    split <;> rfl

/-- References are taken on a body that is not deleted, and is no longer exempt. -/
theorem refBy_tidied (tidied : Tidied x g) (alive : 0 < times → (g.body n).freed = 0)
    (exempt : ∀ m, x = some m → m = n ∧ 0 < times) : Tidied none (g.refBy n times) where
  tidy m := by
    by_cases added : m = n ∧ 0 < times
    · obtain ⟨rfl, some⟩ := added
      apply (tidied.tidy m).fewer
      · simpa [Graph.refBy] using alive some
      · intro e
        simp only [Graph.refBy, Graph.modify_body]
        split <;> rfl
      · simp [Graph.refBy]
    · exact ((refBy_alike added).keeps (tidied.tidy m)).1
  collected m _ := by
    by_cases added : m = n ∧ 0 < times
    · obtain ⟨rfl, some⟩ := added
      intro dead
      simp only [Graph.refBy, Graph.modify_body, if_true] at dead
      omega
    · apply ((refBy_alike added).keeps (tidied.tidy m)).2
      exact tidied.collected m fun same => added (exempt m same)
  exempt _ same := nomatch same

theorem ref_linked (linked : Linked rank P flight o g) (n : EventId) :
    Linked rank P (n :: flight) o (g.ref n) := refBy_linked linked n 1

theorem post_body (k : Caller) (n : EventId) (g : Graph) (d : DriverId) :
    (Graph.post k n g d).body = g.body := by
  simp only [Graph.post]
  split <;> rfl

theorem ref_tidied (tidied : Tidied (some n) g) : Tidied none (g.ref n) :=
  refBy_tidied tidied (fun _ => (tidied.exempt n rfl).1)
    fun _ same => ⟨(Option.some.inj same).symm, Nat.one_pos⟩

theorem post_next (k : Caller) (n : EventId) (g : Graph) (d : DriverId) :
    (Graph.post k n g d).next = g.next := by
  simp only [Graph.post]
  split <;> rfl

theorem post_asap (k : Caller) (n : EventId) (g : Graph) (d d' : DriverId) :
    ((Graph.post k n g d).inbox d').asap =
      (g.inbox d').asap ++ if d' = d ∧ d = k.poster then [n] else [] := by
  simp only [Graph.post]
  by_cases same : d' = d
  · subst same
    split <;> simp_all [Graph.postAsap, Graph.migrateAsap]
  · split <;> simp [Graph.postAsap, Graph.migrateAsap, same]

theorem post_migrate (k : Caller) (n : EventId) (g : Graph) (d d' : DriverId) :
    ((Graph.post k n g d).inbox d').migrate =
      (g.inbox d').migrate ++ if d' = d ∧ d ≠ k.poster then [n] else [] := by
  simp only [Graph.post]
  by_cases same : d' = d
  · subst same
    split <;> simp_all [Graph.postAsap, Graph.migrateAsap]
  · split <;> simp [Graph.postAsap, Graph.migrateAsap, same]

theorem post_inbox (ne : d' ≠ d) : (Graph.post k n g d).inbox d' = g.inbox d' := by
  simp only [Graph.post]
  split <;> simp [Graph.postAsap, Graph.migrateAsap, ne]

theorem post_flagged (flagged : (g.inbox d').Flagged) : ((Graph.post k n g d).inbox d').Flagged := by
  by_cases same : d' = d
  · subst same
    simp only [Graph.post]
    split
    · simpa [Inbox.Flagged, Graph.postAsap] using flagged
    · simp [Inbox.Flagged, Graph.migrateAsap]
  · rwa [post_inbox same]

theorem posts_keep (drivers : List DriverId) :
    ∀ g, let g' := drivers.foldl (Graph.post k n) g
      (∀ d, d ≠ k.poster → (g'.inbox d).asap = (g.inbox d).asap) ∧
      (∀ d, (g.inbox d).asap <+: (g'.inbox d).asap) ∧
      ∀ d, (g.inbox d).Flagged → (g'.inbox d).Flagged := by
  induction drivers with
  | nil => exact fun _ => ⟨fun _ _ => rfl, fun _ => List.prefix_refl _, fun _ h => h⟩
  | cons d drivers ih =>
      intro g
      obtain ⟨apart, grows, flagged⟩ := ih (Graph.post k n g d)
      refine ⟨?_, ?_, ?_⟩
      · intro d' other
        refine (apart d' other).trans ?_
        rw [post_asap, if_neg, List.append_nil]
        rintro ⟨rfl, mine⟩
        exact other mine
      · intro d'
        refine .trans ?_ (grows d')
        rw [post_asap]
        exact List.prefix_append _ _
      · exact fun d' before => flagged d' (post_flagged before)

theorem post_linked (linked : Linked rank P (n :: flight) o g) (d : DriverId) :
    Linked rank P flight o (Graph.post k n g d) := by
  have body := post_body k n g d
  refine ⟨?_, ?_, ?_, ?_, fun m => ?_⟩
  · rw [body]; exact linked.link
  · rw [body]; exact linked.silent
  · rw [body]; exact linked.pending
  · rw [body]; exact linked.ranked
  · have others : ∀ h, (h ≠ .asap d ∨ d ≠ k.poster) → (h ≠ .migrate d ∨ d = k.poster) → h ≠ .flight →
        held (Graph.post k n g d) o flight m h = held g o (n :: flight) m h := by
      intro h notAsap notMigrate notFlight
      cases h <;> simp only [held, body, post_asap, post_migrate] <;>
        first | rfl | exact absurd rfl notFlight | skip
      · rename_i d'
        rw [if_neg (fun same => by simp_all)]
        simp
      · rename_i d'
        rw [if_neg (fun same => by simp_all)]
        simp
    rw [body]
    by_cases same : m = n
    · subst same
      by_cases mine : d = k.poster
      · apply (linked.covered m).move .flight (.asap d) (k := 1) _ (by simp)
        · simp [held]
        · simp [held, post_asap, mine]
        · exact fun h notFlight notAsap => others h (.inl notAsap) (.inr mine) notFlight
      · apply (linked.covered m).move .flight (.migrate d) (k := 1) _ (by simp)
        · simp [held]
        · simp [held, post_migrate, mine]
        · exact fun h notFlight notMigrate => others h (.inr mine) (.inl notMigrate) notFlight
    · apply (linked.covered m).congr
      intro h
      cases h <;> simp only [held, body, post_asap, post_migrate]
      · simp [Ne.symm same]
      · split <;> simp [List.count_append, Ne.symm same]
      · split <;> simp [List.count_append, Ne.symm same]

/-- The event is posted to every listed driver, and nothing else changes. -/
theorem posts_spec (drivers : List DriverId) :
    ∀ {g}, Linked rank P (List.replicate drivers.length n ++ flight) o g →
      let g' := drivers.foldl (Graph.post k n) g
      Linked rank P flight o g' ∧ g'.body = g.body ∧ g'.next = g.next ∧
      (∀ d m, Queued g d m → Queued g' d m) ∧ (∀ d ∈ drivers, Queued g' d n) ∧
      (∀ d m, Queued g' d m → Queued g d m ∨ m = n) ∧
      ∀ d, d ∉ drivers → g'.inbox d = g.inbox d := by
  induction drivers with
  | nil => exact fun linked => ⟨linked, rfl, rfl, fun _ _ h => h,
      fun _ h => (nomatch h), fun _ _ h => .inl h, fun _ _ => rfl⟩
  | cons d drivers ih =>
      intro g linked
      obtain ⟨linked, body, next, keeps, posted, only, others⟩ := ih (post_linked (k := k) linked d)
      have grows : ∀ d' m, Queued g d' m → Queued (Graph.post k n g d) d' m := by
        intro d' m queued
        rw [Queued, post_asap, post_migrate]
        exact queued.imp (List.mem_append_left _) (List.mem_append_left _)
      have here : Queued (Graph.post k n g d) d n := by
        rw [Queued, post_asap, post_migrate]
        by_cases mine : d = k.poster
        · exact .inl (by simp [mine])
        · exact .inr (by simp [mine])
      refine ⟨linked, body.trans (post_body k n g d), next.trans (post_next k n g d),
        fun d' m queued => keeps d' m (grows d' m queued), fun d' listed => ?_,
        fun d' m queued => ?_, fun d' absent => ?_⟩
      · rcases List.mem_cons.mp listed with rfl | later
        · exact keeps _ _ here
        · exact posted d' later
      · rcases only d' m queued with before | same
        · rw [Queued, post_asap, post_migrate, List.mem_append, List.mem_append] at before
          rcases before with (old | new) | (old | new)
          · exact .inl (.inl old)
          · split at new <;> simp_all
          · exact .inl (.inr old)
          · split at new <;> simp_all
        · exact .inr same
      · rw [List.mem_cons, not_or] at absent
        exact (others d' absent.2).trans (post_inbox absent.1)

/-! Setting the flag. -/

theorem count_pairs (quorums : List EventId) (n e q : EventId) :
    (quorums.map fun q => (n, q)).count (e, q) = if e = n then quorums.count q else 0 := by
  induction quorums with
  | nil => simp
  | cons q' quorums ih =>
      simp only [List.map_cons, List.count_cons, ih, beq_iff_eq, Prod.mk.injEq, eq_comm (a := n)]
      by_cases same : e = n <;> simp [same]

/-- A body whose members have all triggered may trigger. -/
theorem fire_tidied (tidied : Tidied none g) (spent : Spent g n) (kept : List Listener) :
    Tidied none (g.fire n kept) := by
  have body : ∀ m, (g.fire n kept).body m =
      if m = n then { g.body m with triggered := true, listeners := kept } else g.body m :=
    fun m => rfl
  have more : ∀ m, Spent g m → Spent (g.fire n kept) m := by
    intro m spent e member
    rw [fire_members] at member
    exact (fire_triggered g n kept e).mpr (.inl (spent e member))
  have freed : ∀ m, ((g.fire n kept).body m).freed = (g.body m).freed := by
    intro m
    rw [body m]
    split <;> rfl
  have refcount : ∀ m, ((g.fire n kept).body m).refcount = (g.body m).refcount := by
    intro m
    rw [body m]
    split <;> rfl
  refine ⟨fun m => ⟨?_, ?_, fun set => ?_⟩, fun m free => ?_, fun _ same => nomatch same⟩
  · rw [freed]
    exact (tidied.tidy m).once
  · rw [freed, refcount, fire_members]
    exact (tidied.tidy m).gone
  · rcases (fire_triggered g n kept m).mp set with before | rfl
    · exact more m ((tidied.tidy m).fired before)
    · exact more m spent
  · rw [Collected, freed, refcount, fire_members]
    intro dead
    exact (tidied.collected m free dead).imp id fun left => ⟨more m left.1, left.2⟩

theorem fire_linked (linked : Linked rank P flight o g) (fresh : (g.body n).triggered = false)
    (noQuorum : ∀ q, kept.count (Listener.quorum q) = 0) :
    Linked rank ((quorumsOf (g.body n).listeners).map (fun q => (n, q)) ++ P) flight o
      (g.fire n kept) := by
  have unknown : ∀ q, P.count (n, q) = 0 := by
    intro q
    apply List.count_eq_zero.mpr
    intro listed
    rw [linked.pending n q listed] at fresh
    contradiction
  have body : ∀ m, (g.fire n kept).body m =
      if m = n then { g.body m with triggered := true, listeners := kept } else g.body m :=
    fun m => rfl
  refine ⟨fun e q => ?_, fun e q fired => ?_, fun e q listed => ?_, fun e q member => ?_,
    fun e => ?_⟩
  · have before := linked.link e q
    rw [fire_members, before, List.count_append, count_pairs, count_quorumsOf, body e]
    by_cases same : e = n
    · subst same
      simp [fresh, unknown]
    · simp [same]
  · rw [body e]
    split
    · exact List.count_eq_zero.mp (noQuorum q)
    · rename_i other
      rw [body e, if_neg other] at fired
      exact linked.silent e q fired
  · rw [fire_triggered]
    rcases List.mem_append.mp listed with new | old
    · obtain ⟨_, _, same⟩ := List.mem_map.mp new
      exact .inr (congrArg Prod.fst same).symm
    · exact .inl (linked.pending e q old)
  · rw [fire_members] at member
    have kind : ((g.fire n kept).body q).isQuorum = (g.body q).isQuorum := by
      rw [body q]
      split <;> rfl
    rw [kind]
    exact linked.ranked e q member
  · rw [held_congr (fire_members g n kept) rfl]
    have refcount : ((g.fire n kept).body e).refcount = (g.body e).refcount := by
      rw [body e]
      split <;> rfl
    rw [refcount]
    exact linked.covered e

theorem Listening.waits (listening : Listening o coh g)
    (listed : .coroutine c ∈ (g.body n).listeners) : o.waiting c = some n := by
  have counted := listening c n
  have positive := List.count_pos_iff.mpr listed
  by_contra idle
  rw [if_neg fun h => idle h.1] at counted
  omega

/-- Setting the flag, with the listeners split as the scan has split them. -/
theorem fire_wakes (listening : Listening o coh g) (fresh : (g.body n).triggered = false)
    (scan : Scanned home k (g.body n).listeners { coh := coh } s) :
    Wakes home k o (some n) ⟨g, coh⟩ ⟨g.fire n s.kept, s.coh⟩ := by
  have body : ∀ m, (g.fire n s.kept).body m =
      if m = n then { g.body m with triggered := true, listeners := s.kept } else g.body m :=
    fun m => rfl
  have waits : ∀ c, .coroutine c ∈ (g.body n).listeners → o.waiting c = some n ∧ coh ≠ some c := by
    intro c listed
    have counted := listening c n
    have positive := List.count_pos_iff.mpr listed
    by_contra idle
    rw [if_neg idle] at counted
    omega
  have newly : Newly g (g.fire n s.kept) n := ⟨fresh, (fire_triggered g n s.kept n).mpr (.inr rfl)⟩
  have only : ∀ m, Newly g (g.fire n s.kept) m → m = n := by
    rintro m ⟨before, after⟩
    rcases (fire_triggered g n s.kept m).mp after with still | same
    · rw [before] at still
      contradiction
    · exact same
  refine ⟨rfl, fun m => ?_, fun m => ?_, fun m h => (fire_triggered g n s.kept m).mpr (.inl h),
    fun c m => ?_,
    scan.keeps, fun c claimed => ?_, fun c m isNew waiting => ?_, fun _ _ h => h,
    fun _ _ h => .inl h, fun m => ?_, fun _ _ => rfl, fun _ => List.prefix_refl _,
    fun _ h => h⟩
  · simp only [body m]
    split <;> rfl
  · simp only [body m]
    split <;> rfl
  · have before := listening c m
    have counts := scan.counts c
    have kept : s.coh ≠ some c → coh ≠ some c := by
      rintro other rfl
      exact other (scan.keeps (fun h => nomatch h))
    simp only [body m]
    by_cases same : m = n
    · subst same
      simp only [if_true, taken, List.count_nil, Nat.zero_add, before] at counts ⊢
      by_cases claimed : s.coh = some c
      · rcases scan.claims c claimed with already | ⟨_, listed⟩
        · simp_all
        · simp_all [waits c listed]
      · simpa [claimed, kept claimed] using counts
    · rw [if_neg same, before]
      by_cases claimed : s.coh = some c
      · rcases scan.claims c claimed with already | ⟨_, listed⟩
        · simp_all
        · simp [(waits c listed).1, Ne.symm same]
      · simp [claimed, kept claimed]
  · rcases scan.claims c claimed with before | ⟨mine, listed⟩
    · exact .inl before
    · exact .inr ⟨mine, n, (waits c listed).1, newly⟩
  · cases only m isNew
    by_cases mine : k.drv = some (home c)
    · rw [if_pos mine]
      by_cases free : coh = none
      · have listed : .coroutine c ∈ (g.body n).listeners := by
          have counted := listening c n
          rw [if_pos ⟨waiting, by simp [free]⟩] at counted
          exact List.count_pos_iff.mp (by omega)
        have posted := scan.posted c listed
        rwa [if_pos mine] at posted
      · rw [scan.keeps free]
        exact free
    · rw [if_neg mine]
      exact fun late => absurd rfl late
  · rw [fire_members]

/-! The recursion. -/

/-- What triggering leaves: the formula holds everywhere, the links are whole
but for the notifications that were already on their way, and every coroutine is
accounted for. -/
structure Settles (rank : EventId → Nat) (P : List (EventId × EventId)) (flight : List EventId)
    (args : EventId → List Handle) (explicit : EventId → Prop) (home : CoroutineId → DriverId)
    (k : Caller) (o : Outside) (x : Option EventId) (w w' : Wake) : Prop where
  linked : Linked rank P flight o w'.graph
  counted : Counted args explicit none none w'.graph
  wakes : Wakes home k o none w w'
  tidied : Tidied x w.graph → Tidied none w'.graph

/-- `fire` may trigger event `n` of a graph whose other quorums are settled, if
`n` has a reason to. -/
def Fires (rank : EventId → Nat) (args : EventId → List Handle) (explicit : EventId → Prop)
    (home : CoroutineId → DriverId) (k : Caller) (o : Outside) (fuel : Nat)
    (fire : Wake → EventId → Wake) : Prop :=
  ∀ {P flight w n}, w.graph.next < fuel + rank n → (∀ m, rank m ≤ w.graph.next) →
    Linked rank P flight o w.graph → Counted args explicit (some n) (some n) w.graph →
    (w.graph.body n).triggered = false →
    Due args explicit w.graph n →
    Listening o w.coh w.graph → Claims home k w.coh →
    Settles rank P flight args explicit home k o (some n) w (fire w n) ∧
      ((fire w n).graph.body n).triggered = true

theorem Counted.settle (counted : Counted args explicit none (some q) g)
    (low : (g.body q).triggered = false → (g.body q).triggeredMembers < (g.body q).quorum) :
    Counted args explicit none none g := by
  refine { counted with below := fun m _ quorum live waiting => ?_ }
  by_cases same : q = m
  · exact same ▸ low (same ▸ waiting)
  · exact counted.below m (fun h => same (Option.some.inj h)) quorum live waiting

variable {fire : Wake → EventId → Wake} {fuel : Nat}

theorem triggerMember_settles (spec : Fires rank args explicit home k o fuel fire)
    (reach : w.graph.next < fuel + rank q) (deep : ∀ m, rank m ≤ w.graph.next)
    (linked : Linked rank ((n, q) :: P) flight o w.graph)
    (counted : Counted args explicit none none w.graph) (listening : Listening o w.coh w.graph)
    (own : Claims home k w.coh) :
    Settles rank P flight args explicit home k o none w (triggerMember fire n w q) := by
  have isQuorum := (linked.ranked n q linked.member).2
  have tidied := countMember_tidied deep linked
  obtain ⟨linked, counted, wakes⟩ : _ ∧ _ ∧
      Wakes home k o none w ⟨w.graph.countMember n q, w.coh⟩ :=
    countMember_spec deep linked counted listening
  unfold triggerMember
  simp only
  split
  · rename_i due
    simp only [Bool.and_eq_true, Bool.not_eq_true', decide_eq_true_eq] at due
    have weak : Counted args explicit (some q) (some q) (w.graph.countMember n q) :=
      { counted with exactly := fun m _ => counted.exactly m (fun h => nomatch h) }
    have next : (w.graph.countMember n q).next = w.graph.next := wakes.next
    have why : Due args explicit (w.graph.countMember n q) q :=
      .inr ⟨(wakes.kinds q).trans isQuorum, due.2.trans ((Nat.le_add_right _ _).trans (counted.atMost q))⟩
    obtain ⟨settles, _⟩ := spec (w := ⟨w.graph.countMember n q, w.coh⟩) (by rwa [next])
      (by rwa [next]) linked weak due.1 why wakes.listening own
    exact ⟨settles.linked, settles.counted, wakes.trans settles.wakes,
      fun before => settles.tidied (tidied before)⟩
  · rename_i idle
    have settled := counted.settle fun waiting => by
      simpa [waiting] using idle
    split
    · rename_i unused
      have shrinks := free_shrinks (w.graph.countMember n q) q
      refine ⟨free_linked linked, settled.shrinks shrinks,
        wakes.trans (shrinks.wakes wakes.listening), fun before => ?_⟩
      simp only [Bool.and_eq_true, List.isEmpty_iff, beq_iff_eq] at unused
      exact (tidied before).free unused.2 unused.1
    · rename_i used
      refine ⟨linked, settled, wakes, fun before => (tidied before).settle fun dead => .inr ?_⟩
      refine ⟨(((tidied before).exempt q rfl).2 dead).2, fun _ empty => used ?_⟩
      simp [empty, dead]

theorem inform_settles (spec : Fires rank args explicit home k o fuel fire) (quorums : List EventId) :
    ∀ {w}, w.graph.next < fuel + 1 + rank n → (∀ m, rank m ≤ w.graph.next) →
      Linked rank (quorums.map (fun q => (n, q)) ++ P) flight o w.graph →
      Counted args explicit none none w.graph → Listening o w.coh w.graph →
      Claims home k w.coh → Settles rank P flight args explicit home k o none w
        (quorums.foldl (triggerMember fire n) w) := by
  induction quorums with
  | nil => exact fun _ _ linked counted listening _ => ⟨linked, counted, Wakes.refl listening, id⟩
  | cons q quorums ih =>
      intro w reach deep linked counted listening own
      have below := (linked.ranked n q linked.member).1
      have higher : w.graph.next < fuel + rank q := Nat.lt_of_lt_of_le reach (by omega)
      have first := triggerMember_settles spec higher deep linked counted listening own
      have next := first.wakes.next
      have rest := ih (by rwa [next]) (by rwa [next]) first.linked first.counted first.wakes.listening
        (first.wakes.own own)
      exact ⟨rest.linked, rest.counted, first.wakes.trans rest.wakes,
        fun before => rest.tidied (first.tidied before)⟩

/-- From setting the flag to posting the event. -/
theorem fire_settles (spec : Fires rank args explicit home k o fuel fire)
    (reach : g.next < fuel + 1 + rank n) (deep : ∀ m, rank m ≤ g.next)
    (linked : Linked rank P flight o g) (counted : Counted args explicit (some n) (some n) g)
    (fresh : (g.body n).triggered = false) (spent : Spent g n)
    (why : Due args explicit g n)
    (listening : Listening o coh g) (own : Claims home k coh)
    (scan : Scanned home k (g.body n).listeners { coh := coh } s) :
    let informed := s.quorums.foldl (triggerMember fire n) ⟨g.fire n s.kept, s.coh⟩
    let g' := s.drivers.foldl (Graph.post k n) (informed.graph.refBy n s.drivers.length)
    Settles rank P flight args explicit home k o none ⟨g, coh⟩ ⟨g', informed.coh⟩ ∧
      (g'.body n).triggered = true := by
  intro informed g'
  have quorums : s.quorums = quorumsOf (g.body n).listeners := by simpa using scan.quorums
  have flagged := fire_linked linked fresh (fun q => by simpa using scan.noQuorum q)
  rw [← quorums] at flagged
  have wakes := fire_wakes listening fresh scan
  have inner : Settles rank P flight args explicit home k o none ⟨g.fire n s.kept, s.coh⟩ informed :=
    inform_settles spec s.quorums reach deep flagged (counted.fire fresh s.kept why) wakes.listening
      (wakes.own own)
  have set : (informed.graph.body n).triggered = true :=
    inner.wakes.triggered n ((fire_triggered g n s.kept n).mpr (.inr rfl))
  obtain ⟨posted, body, next, keeps, here, only, others⟩ :=
    posts_spec (k := k) s.drivers (refBy_linked inner.linked n s.drivers.length)
  have keep := posts_keep (k := k) (n := n) s.drivers
    (informed.graph.refBy n s.drivers.length)
  have same : ∀ m, ∃ refcount, g'.body m = { informed.graph.body m with refcount } ∧
      (m ≠ n → refcount = (informed.graph.body m).refcount) := by
    intro m
    rw [show g'.body = _ from body]
    simp only [Graph.refBy, Graph.modify_body]
    split
    · rename_i isN
      exact ⟨_, rfl, fun ne => absurd isN ne⟩
    · exact ⟨_, rfl, fun _ => rfl⟩
  have triggered : ∀ m, (g'.body m).triggered = (informed.graph.body m).triggered := by
    intro m
    obtain ⟨_, eq, _⟩ := same m
    rw [eq]
  have all := wakes.trans inner.wakes.weaken
  refine ⟨⟨posted, ?_, ?_, fun before => ?_⟩, (triggered n).trans set⟩
  · apply inner.counted.update
    intro m
    obtain ⟨refcount, eq, kept⟩ := same m
    refine ⟨refcount, (informed.graph.body m).freed, (informed.graph.body m).listeners, eq,
      fun _ waiting live => ?_⟩
    have other : m ≠ n := by
      rintro rfl
      rw [set] at waiting
      contradiction
    exact kept other ▸ live
  · refine ⟨next.trans all.next, fun m => ?_, fun m => ?_,
      fun m h => (triggered m).trans (all.triggered m h),
      fun c m => ?_, all.keeps, fun c claimed => ?_, fun c m newly waits => ?_,
      fun d m queued => keeps d m (all.queues d m queued), fun d m queued => ?_, fun m => ?_,
      fun d other => ?_, fun d => (all.grows d).trans (keep.2.1 d), fun d before => ?_⟩
    · obtain ⟨_, eq, _⟩ := same m
      rw [eq]
      exact all.kinds m
    · obtain ⟨_, eq, _⟩ := same m
      rw [eq]
      exact all.quorums m
    · obtain ⟨_, eq, _⟩ := same m
      rw [eq]
      exact all.listening c m
    · refine (all.claims c claimed).imp id ?_
      rintro ⟨mine, m, waits, newly⟩
      exact ⟨mine, m, waits, newly.1, (triggered m).trans newly.2⟩
    · have before := all.posted c m ⟨newly.1, (triggered m).symm.trans newly.2⟩ waits
      by_cases mine : k.drv = some (home c)
      · rwa [if_pos mine] at before ⊢
      · rw [if_neg mine] at before ⊢
        intro _
        by_cases isN : n = m
        · subst isN
          apply here
          have listed : .coroutine c ∈ (g.body n).listeners := by
            have counted := listening c n
            rw [if_pos ⟨waits, fun claimed => mine (own c claimed)⟩] at counted
            exact List.count_pos_iff.mp (by omega)
          have posted := scan.posted c listed
          rwa [if_neg mine] at posted
        · exact keeps _ _ (before (fun h => isN (Option.some.inj h)))
    · by_cases listed : d ∈ s.drivers
      · rcases only d m queued with before | rfl
        · exact all.posts d m before
        · obtain ⟨_, c, inside, _⟩ := (scan.others d listed).resolve_left (by rintro ⟨⟩)
          exact .inr ⟨c, listening.waits inside⟩
      · rw [Queued, others d listed] at queued
        exact all.posts d m queued
    · obtain ⟨_, eq, _⟩ := same m
      rw [eq]
      exact all.fewer m
    · exact (keep.1 d other).trans (all.apart d other)
    · exact keep.2.2 d (all.flagged d before)
  · have settled := inner.tidied (fire_tidied before spent s.kept)
    have held : 0 < s.drivers.length → (informed.graph.body n).freed = 0 := by
      intro some
      obtain ⟨d, listed⟩ := List.exists_mem_of_length_pos some
      obtain ⟨_, c, inside, _⟩ := (scan.others d listed).resolve_left (by rintro ⟨⟩)
      apply (settled.tidy n).alive
      exact inner.linked.alive (.coroutine c) (by simp [Event.held, listening.waits inside])
    refine (refBy_tidied settled held (by rintro _ ⟨⟩)).alike fun m => ?_
    exact ⟨next, by rw [body], by rw [body], by rw [body], fun e => by rw [body]⟩

theorem ref_body_eq (g : Graph) (n m : EventId) : (g.ref n).body m = { g.body m with
    refcount := (g.body m).refcount + if m = n then 1 else 0 } := by
  simp only [Graph.ref_body]
  split <;> rfl

theorem ref_wakes (listening : Listening o coh g) (n : EventId) :
    Wakes home k o late ⟨g, coh⟩ ⟨g.ref n, coh⟩ where
  next := rfl
  kinds m := by simp only [ref_body_eq]
  quorums m := by simp only [ref_body_eq]
  triggered m h := by simpa only [ref_body_eq] using h
  listening c m := by
    simp only [ref_body_eq]
    exact listening c m
  keeps _ := rfl
  claims _ h := .inl h
  posted _ m newly := absurd newly (not_newly (by simp only [ref_body_eq]))
  queues _ _ h := h
  posts _ _ h := .inl h
  fewer m := by simp only [ref_body_eq, List.Subperm.refl]
  apart _ _ := rfl
  grows _ := List.prefix_refl _
  flagged _ h := h

theorem ref_counted (counted : Counted args explicit (some n) (some n) g) :
    Counted args explicit (some n) (some n) (g.ref n) := by
  apply counted.update
  intro m
  refine ⟨_, (g.body m).freed, (g.body m).listeners, ref_body_eq g n m, fun exempt _ live => ?_⟩
  have other : m ≠ n := by
    rintro rfl
    simp at exempt
  simpa [other] using live

theorem triggerUnlockWith_fires (fuel : Nat) :
    Fires rank args explicit home k o fuel (triggerUnlockWith home k fuel) := by
  induction fuel with
  | zero =>
      intro P flight w n reach deep
      exact absurd reach (Nat.not_lt.mpr (by simpa using deep n))
  | succ fuel ih =>
      intro P flight w n reach deep linked counted fresh why listening own
      unfold triggerUnlockWith
      simp only
      cases kind : (w.graph.body n).isQuorum with
      | false =>
          simp only [Bool.false_eq_true, if_false]
          have empty : (w.graph.body n).members = [] := by
            apply List.eq_nil_iff_forall_not_mem.mpr
            intro e member
            rw [(linked.ranked e n member).2] at kind
            contradiction
          have spent : Spent w.graph n := by
            rw [Spent, empty]
            exact List.forall_mem_nil _
          obtain ⟨settles, set⟩ := fire_settles ih reach deep linked counted fresh spent why listening own
            (scanned _ _)
          refine ⟨{ settles with tidied := fun before => settles.tidied (before.settle fun dead => ?_) }, set⟩
          rw [((before.exempt n rfl).2 dead).1] at kind
          contradiction
      | true =>
          simp only [if_true]
          obtain ⟨culled, shrinks, mine, keeps, spent⟩ := cullMembers_linked (q := n)
            (g := w.graph.ref n) deep (ref_linked linked n)
          have counted' := (ref_counted counted).shrinks shrinks
          have opened : Wakes home k o none w ⟨w.graph.ref n, w.coh⟩ := ref_wakes listening n
          have opened : Wakes home k o none w ⟨(w.graph.ref n).cullMembers n, w.coh⟩ :=
            opened.trans (shrinks.wakes opened.listening)
          have next : ((w.graph.ref n).cullMembers n).next = w.graph.next := opened.next
          have flags : ∀ m, (((w.graph.ref n).cullMembers n).body m).triggered =
              (w.graph.body m).triggered := by
            intro m
            rw [shrinks.triggered, ref_body_eq]
          have why' : Due args explicit ((w.graph.ref n).cullMembers n) n := by
            rw [Due, shrinks.quorum, shrinks.isQuorum, ref_body_eq, triggeredArgs_congr flags]
            exact why
          obtain ⟨inner, set⟩ := fire_settles ih (by rwa [next]) (by rwa [next]) culled counted'
            ((flags n).trans fresh) spent why' opened.listening own (scanned _ _)
          have all := opened.trans inner.wakes
          obtain ⟨dropped, shrinks'⟩ := deref_linked (by rw [inner.wakes.next]; rwa [next]) inner.linked
          refine ⟨⟨dropped, inner.counted.shrinks shrinks',
            all.trans (shrinks'.wakes inner.wakes.listening), fun before => ?_⟩,
            (shrinks'.triggered n).trans set⟩
          have ready := (ref_tidied before).cull keeps (ref_linked linked n).flying mine shrinks
          exact (inner.tidied ready).keeps
            (deref_keeps (by rw [inner.wakes.next]; rwa [next]) inner.linked)

theorem triggerUnlock_settles (deep : ∀ m, rank m ≤ w.graph.next)
    (linked : Linked rank P flight o w.graph)
    (counted : Counted args explicit (some n) (some n) w.graph)
    (fresh : (w.graph.body n).triggered = false)
    (why : Due args explicit w.graph n)
    (listening : Listening o w.coh w.graph) (own : Claims home k w.coh) :
    Settles rank P flight args explicit home k o (some n) w (triggerUnlock home k w n) ∧
      ((triggerUnlock home k w n).graph.body n).triggered = true :=
  triggerUnlockWith_fires _ (by omega) deep linked counted fresh why listening own

end Cotamer.Event
