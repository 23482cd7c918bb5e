import Cotamer.Fd.Closing

/-! When the descriptor is closed and the body deleted. Reference counts and the
list of drivers are balanced against what every thread still has to do. -/
namespace Cotamer.Fd
open SwapVector Transition Totals

/-- References of a thread, those it is dropping included. -/
def Thread.holds (t : Thread) : Nat :=
  t.refs + t.acts.count .fetchSub + t.acts.count (.close true)

/-- The numbers that describe the life of the body. `leaks` says whether the last
reference may have been dropped without a call of `close`. -/
structure Numbers
    (leaks ref held closes closing base deletes deleting isOpen drivers last : Nat) : Prop where
  counted : ref = held
  once : closes + closing + base = 1
  deleted : deletes + deleting ≤ 1
  dead : 0 < deletes + deleting → ref = 0 ∧ drivers = 0 ∧ isOpen = 0
  opens : 0 < isOpen → base = 1
  used : 0 < isOpen → 0 < leaks ∨ 0 < ref
  shut : isOpen = 0 → drivers = 0 → base = 0
  unlisted : 0 < closing → drivers = 0
  unused : ref = 0 → 0 < leaks ∨ 0 < drivers ∨ 0 < deletes + deleting
  sole : 0 < last → ref = 1
  few : last ≤ held

namespace Numbers

variable {leaks ref held closes closing base deletes deleting isOpen drivers last : Nat}

theorem copy (n : Numbers leaks ref held closes closing base deletes deleting isOpen drivers last)
    (spare : last + 1 ≤ held) :
    Numbers leaks (ref + 1) (held + 1) closes closing base deletes deleting isOpen drivers last := by
  have counted := n.counted
  constructor
  · omega
  · exact n.once
  · exact n.deleted
  · intro deletes
    have dead := n.dead deletes
    omega
  · exact n.opens
  · exact fun _ => .inr (Nat.succ_pos ref)
  · exact n.shut
  · exact n.unlisted
  · exact nofun
  · intro going
    have sole := n.sole going
    omega
  · exact Nat.le_succ_of_le n.few

/-- The last reference is being dropped. -/
theorem dropLast (n : Numbers leaks ref held closes closing base deletes deleting isOpen drivers last)
    (spare : last + 1 ≤ held) (sole : ref = 1) :
    Numbers leaks ref held closes closing base deletes deleting isOpen drivers (last + 1) := by
  obtain ⟨counted, once, deleted, dead, opens, used, shut, unlisted, unused, _, few⟩ := n
  exact ⟨counted, once, deleted, dead, opens, used, shut, unlisted, unused, fun _ => sole, spare⟩

theorem fetchSub (n : Numbers leaks ref held closes closing base deletes deleting isOpen drivers last)
    (several : 0 < leaks ∨ 2 ≤ ref) (spare : last + 1 ≤ held) (less : held' + 1 = held) :
    Numbers leaks (ref - 1) held' closes closing base deletes deleting isOpen drivers last := by
  have counted := n.counted
  constructor
  · omega
  · exact n.once
  · exact n.deleted
  · intro deletes
    have dead := n.dead deletes
    omega
  · exact n.opens
  · intro _
    omega
  · exact n.shut
  · exact n.unlisted
  · intro none
    exact .inl (by omega)
  · intro going
    have sole := n.sole going
    omega
  · omega

theorem osClose (n : Numbers leaks ref held closes closing base deletes deleting isOpen drivers last)
    (less : closing' + 1 = closing) :
    Numbers leaks ref held (closes + 1) closing' base deletes deleting isOpen drivers last := by
  obtain ⟨counted, once, deleted, dead, opens, used, shut, unlisted, unused, sole, few⟩ := n
  refine ⟨counted, ?_, deleted, dead, opens, used, shut, fun _ => unlisted ?_, unused, sole, few⟩
  · omega
  · omega

theorem delete (n : Numbers leaks ref held closes closing base deletes deleting isOpen drivers last)
    (less : deleting' + 1 = deleting) :
    Numbers leaks ref held (closes + base) closing 0 (deletes + 1) deleting' isOpen drivers last := by
  obtain ⟨none, unlisted, shut⟩ := n.dead (by omega)
  obtain ⟨counted, once, deleted, dead, opens, used, _, listed, unused, sole, few⟩ := n
  constructor
  · exact counted
  · omega
  · omega
  · exact fun _ => ⟨none, unlisted, shut⟩
  · exact fun still => absurd shut (Nat.ne_of_gt still)
  · exact used
  · exact fun _ _ => rfl
  · exact listed
  · exact fun _ => .inr (.inr (by omega))
  · exact sole
  · exact few

theorem addListener (n : Numbers leaks ref held closes closing base deletes deleting 1 drivers last) :
    Numbers leaks ref held closes closing base deletes deleting 1 (drivers + 1) last := by
  have opened := n.opens Nat.one_pos
  have once := n.once
  constructor
  · exact n.counted
  · exact once
  · exact n.deleted
  · exact fun deletes => nomatch (n.dead deletes).2.2
  · exact n.opens
  · exact n.used
  · exact nofun
  · intro closing
    omega
  · exact fun _ => .inr (.inl (Nat.succ_pos drivers))
  · exact n.sole
  · exact n.few

/-- `c` and `d` say whether the last driver closes the descriptor and deletes the body. -/
theorem removeListener (n : Numbers leaks ref held closes closing base deletes deleting isOpen (drivers + 1) last)
    (closed : isOpen = 0)
    (close : c = 1 ∧ drivers = 0 ∧ isOpen = 0 ∧ base = 1 ∨ c = 0 ∧ ¬(drivers = 0 ∧ isOpen = 0 ∧ base = 1))
    (delete : d = 1 ∧ drivers = 0 ∧ ref = 0 ∨ d = 0 ∧ ¬(drivers = 0 ∧ ref = 0)) :
    Numbers leaks ref held closes (closing + c) (base - c) deletes (deleting + d) isOpen drivers last := by
  have once := n.once
  -- a driver is left, so nothing closes or deletes the body yet
  have idle : closing = 0 := Nat.eq_zero_of_not_pos fun going => nomatch n.unlisted going
  have alive : deletes + deleting = 0 := Nat.eq_zero_of_not_pos fun dying => nomatch (n.dead dying).2.1
  constructor
  · exact n.counted
  · omega
  · omega
  · omega
  · exact fun still => absurd closed (Nat.ne_of_gt still)
  · exact n.used
  · omega
  · omega
  · omega
  · exact n.sole
  · exact n.few

/-- `k` says whether a reference is dropped. -/
theorem close (n : Numbers leaks ref held closes closing base deletes deleting isOpen drivers last)
    (drop : k = 0 ∨ k = 1 ∧ 0 < last) (less : held' + k = held) (less' : last' + k = last)
    (close : c = 1 ∧ drivers = 0 ∧ isOpen = 1 ∧ base = 1 ∨ c = 0 ∧ ¬(drivers = 0 ∧ isOpen = 1 ∧ base = 1))
    (delete : d = 1 ∧ drivers = 0 ∧ k = 1 ∨ d = 0 ∧ ¬(drivers = 0 ∧ k = 1)) (flag : isOpen ≤ 1) :
    Numbers leaks (ref - k) held' closes (closing + c) (base - c) deletes (deleting + d) 0 drivers last' := by
  have counted := n.counted
  have few := n.few
  have dropped : k = 1 → ref = 1 := fun one => n.sole (by omega)
  constructor
  · omega
  · have once := n.once
    omega
  · have deleted := n.deleted
    have dead := n.dead
    omega
  · have dead := n.dead
    omega
  · exact nofun
  · exact nofun
  · have shut := n.shut
    have opens := n.opens
    omega
  · have unlisted := n.unlisted
    omega
  · have unused := n.unused
    omega
  · have sole := n.sole
    omega
  · omega

end Numbers

/-- No step of `watch` is left to do. -/
def Calm (acts : List Act) : Prop := .addListener ∉ acts ∧ ∀ e, .append e ∉ acts

/-- A thread is inside `watch`, or has nothing of it to do. -/
def Thread.Watching (t : Thread) : Prop :=
  (∃ e, t.acts = [.addListener, .append e] ∨ t.acts = [.append e]) ∨ Calm t.acts

namespace State

variable {s s' : State} {i j : Nat} {t t' u : Thread} {rest : List Act} {a : Act} {l : Label}
  {leaks : Bool}

/-- How many threads have a step still to do. -/
def pending (a : Act) (s : State) : Nat := total (fun t => t.acts.count a) s.threads

/-- No driver registers a body that has been closed since it read the descriptor. -/
def Prompt (s : State) : Label → Prop
  | .act i => ∀ t ∈ s.threads[i]?, t.acts.head? = some .addListener → s.body.isOpen = true
  | _ => True

/-- `deref` does not decrement the last reference without closing. -/
def Shared (s : State) : Label → Prop
  | .act i => ∀ t ∈ s.threads[i]?, t.acts.head? = some .fetchSub → 2 ≤ s.body.ref
  | _ => True

def Careful (s : State) (l : Label) : Prop := s.Prompt l ∧ s.Shared l

/-- The life of the body in numbers: references counted and held, calls of `::close`
made and under way, whether `base_fd_` is valid, deletions made and under way, whether
`fd_` is valid, listed drivers, and last references being dropped. -/
abbrev Tally (s : State) (leaks : Bool) : Prop :=
  Numbers leaks.toNat s.body.ref (total Thread.holds s.threads) s.body.closes (s.pending .osClose)
    s.body.base.toNat s.body.deletes (s.pending .delete) s.body.isOpen.toNat s.body.drivers.length
    (s.pending (.close true))

/-- The driver of thread `i` is listed when it is registered, and is told when
the body is closed. -/
structure Placed (s : State) (i : Nat) (t : Thread) : Prop where
  balance : s.body.drivers.count i + t.acts.count .addListener =
    t.registered.toNat + t.acts.count .removeListener
  single : s.body.drivers.count i + t.acts.count .addListener ≤ 1
  watching : t.Watching
  chained : t.chain ≠ [] ∨ (∃ e, .append e ∈ t.acts) → t.registered = true
  fresh : .addListener ∈ t.acts → t.chain = []
  parting : .removeListener ∈ t.acts → s.body.isOpen = false
  told : s.body.isOpen = false → t.registered = true → i ∈ s.body.drivers →
    0 < t.closing + s.pending (.notify i)

structure Sound (s : State) (leaks : Bool) : Prop where
  tally : s.Tally leaks
  valid : ∀ d ∈ s.body.drivers, d < s.threads.length
  placed : ∀ i t, s.threads[i]? = some t → s.Placed i t

/-! One thread changes. -/

theorem pending_set (found : s.threads[i]? = some t) (t' : Thread) (a : Act) :
    (s.setThread i t').pending a + t.acts.count a = s.pending a + t'.acts.count a :=
  total_set found t'

theorem holds_set (found : s.threads[i]? = some t) (t' : Thread) :
    total Thread.holds (s.setThread i t').threads + t.holds = total Thread.holds s.threads + t'.holds :=
  total_set found t'

/-- What a thread does not give to `close` is not the last reference being dropped. -/
theorem holds_spare (found : s.threads[i]? = some t) :
    t.refs + t.acts.count .fetchSub + s.pending (.close true) ≤ total Thread.holds s.threads := by
  have split : total Thread.holds s.threads =
      total (fun t => t.refs + t.acts.count .fetchSub) s.threads + s.pending (.close true) :=
    total_add _ _
  have least := le_total (f := fun t => t.refs + t.acts.count .fetchSub) found
  rw [split]
  exact Nat.add_le_add_right least _

theorem setThread_get (found : s.threads[i]? = some t) (t' : Thread) :
    (s.setThread i t').threads[i]? = some t' := by
  simp only [setThread]
  rw [List.getElem?_set_self']
  simp [found]

theorem setThread_ne (other : j ≠ i) (t' : Thread) : (s.setThread i t').threads[j]? = s.threads[j]? :=
  List.getElem?_set_ne other.symm

theorem calm_tail (watching : t.Watching) (acts : t.acts = a :: rest) (add : a ≠ .addListener)
    (append : ∀ e, a ≠ .append e) : Calm rest := by
  rcases watching with ⟨e, both | one⟩ | ⟨noAdd, noAppend⟩
  · rw [acts] at both
    exact absurd (List.cons.inj both).1 add
  · rw [acts] at one
    exact absurd (List.cons.inj one).1 (append e)
  · rw [acts] at noAdd noAppend
    constructor
    · exact fun member => noAdd (List.mem_cons_of_mem _ member)
    · exact fun e member => noAppend e (List.mem_cons_of_mem _ member)

theorem Calm.append (left : Calm acts) (right : Calm rest) : Calm (acts ++ rest) := by
  constructor
  · rw [List.mem_append]
    rintro (member | member)
    · exact left.1 member
    · exact right.1 member
  · intro e
    rw [List.mem_append]
    rintro (member | member)
    · exact left.2 e member
    · exact right.2 e member

/-- A thread that does not change. -/
theorem Placed.carry (placed : s.Placed j u) (count : s'.body.drivers.count j = s.body.drivers.count j)
    (closed : s.body.isOpen = false → s'.body.isOpen = false)
    (told : s'.body.isOpen = false → j ∈ s'.body.drivers → u.registered = true →
      s.body.isOpen = false ∧ s.pending (.notify j) ≤ s'.pending (.notify j) ∨
        0 < u.closing + s'.pending (.notify j)) : s'.Placed j u where
  balance := count ▸ placed.balance
  single := count ▸ placed.single
  watching := placed.watching
  chained := placed.chained
  fresh := placed.fresh
  parting member := closed (placed.parting member)
  told closed registered listed := by
    rcases told closed listed registered with ⟨before, more⟩ | heard
    · have listed' : j ∈ s.body.drivers := by
        rw [← List.count_pos_iff, ← count]
        exact List.count_pos_iff.mpr listed
      have heard := placed.told before registered listed'
      omega
    · exact heard

theorem sound_set (sound : s.Sound leaks) (threads : s'.threads = (s.setThread i t').threads)
    (tally : s'.Tally leaks) (mine : s'.Placed i t')
    (valid : ∀ d ∈ s'.body.drivers, d ∈ s.body.drivers ∨ d < s.threads.length)
    (others : ∀ j u, j ≠ i → s.Placed j u → s.threads[j]? = some u → s'.Placed j u) : s'.Sound leaks where
  tally := tally
  valid d listed := by
    rw [threads]
    simp only [setThread, List.length_set]
    rcases valid d listed with old | new
    · exact sound.valid d old
    · exact new
  placed j u found := by
    by_cases same : j = i
    · subst same
      rw [threads] at found
      simp only [setThread] at found
      rw [List.getElem?_set_self'] at found
      obtain ⟨_, _, rfl⟩ := Option.map_eq_some_iff.mp found
      exact mine
    · rw [threads, setThread_ne same] at found
      exact others j u same (sound.placed j u found) found

theorem pending_congr (threads : s'.threads = (s.setThread i t').threads) (a : Act) :
    s'.pending a = (s.setThread i t').pending a := by
  rw [pending, threads]
  rfl

/-- The counts of the acts the numbers speak of. -/
theorem counts_set (found : s.threads[i]? = some t) (s' : State) (t' : Thread)
    (threads : s'.threads = (s.setThread i t').threads) :
    total Thread.holds s'.threads + t.holds = total Thread.holds s.threads + t'.holds ∧
    ∀ a, s'.pending a + t.acts.count a = s.pending a + t'.acts.count a := by
  constructor
  · rw [threads]
    exact holds_set found t'
  · intro a
    rw [pending_congr threads]
    exact pending_set found t' a

/-- A step that changes neither the list of drivers nor `fd_`. -/
theorem sound_local (sound : s.Sound leaks) (found : s.threads[i]? = some t) (t' : Thread)
    (threads : s'.threads = (s.setThread i t').threads) (drivers : s'.body.drivers = s.body.drivers)
    (isOpen : s'.body.isOpen = s.body.isOpen) (tally : s'.Tally leaks) (calm : t'.Watching)
    (balance : t'.acts.count .addListener + t.registered.toNat + t.acts.count .removeListener =
      t.acts.count .addListener + t'.registered.toNat + t'.acts.count .removeListener)
    (adds : t'.acts.count .addListener ≤ t.acts.count .addListener ∨ i ∉ s.body.drivers ∧
      t'.acts.count .addListener = 1)
    (chained : t'.chain ≠ [] ∨ (∃ e, .append e ∈ t'.acts) → t'.registered = true)
    (fresh : .addListener ∈ t'.acts → t'.chain = [])
    (parting : .removeListener ∈ t'.acts → .removeListener ∈ t.acts)
    (told : s.body.isOpen = false → t'.registered = true → t.registered = false ∧ i ∉ s.body.drivers ∨
      t.registered = true ∧ ∀ d, t.closing + t.acts.count (.notify d) ≤ t'.closing + t'.acts.count (.notify d))
    (notes : ∀ d, t.acts.count (.notify d) ≤ t'.acts.count (.notify d)) : s'.Sound leaks := by
  obtain ⟨_, counts⟩ := counts_set found _ _ threads
  have placed := sound.placed i t found
  apply sound_set sound threads tally
  · constructor
    · have before := placed.balance
      rw [drivers]
      omega
    · have before := placed.single
      rw [drivers]
      rcases adds with less | ⟨absent, one⟩
      · omega
      · have none := List.count_eq_zero.mpr absent
        omega
    · exact calm
    · exact chained
    · exact fresh
    · intro member
      rw [isOpen]
      exact placed.parting (parting member)
    · intro closed registered listed
      rw [isOpen] at closed
      rw [drivers] at listed
      rcases told closed registered with ⟨_, absent⟩ | ⟨before, more⟩
      · exact absurd listed absent
      · have heard := placed.told closed before listed
        have count := counts (.notify i)
        have more := more i
        have least : t.acts.count (.notify i) ≤ s.pending (.notify i) :=
          le_total (f := fun t => t.acts.count (.notify i)) found
        omega
  · intro d listed
    rw [drivers] at listed
    exact .inl listed
  · intro j u _ placed' _
    apply placed'.carry (by rw [drivers]) (by rw [isOpen]; exact id)
    intro closed _ _
    have count := counts (.notify j)
    have more := notes j
    rw [isOpen] at closed
    exact .inl ⟨closed, by omega⟩

/-! The steps under way. -/

/-- What `close` and `remove_listener` leave to do after their sections. -/
theorem count_after (c d : Bool) (rest : List Act) (a : Act) :
    ((if c = true then [Act.osClose] else []) ++ (if d = true then [Act.delete] else []) ++ rest).count a =
      rest.count a + (if a = .osClose then c.toNat else 0) + (if a = .delete then d.toNat else 0) := by
  by_cases close : a = .osClose
  · subst close
    cases c <;> cases d <;> simp
  · by_cases delete : a = .delete
    · subst delete
      cases c <;> cases d <;> simp
    · cases c <;> cases d <;> simp [close, delete, Ne.symm close, Ne.symm delete]

theorem and_not_toNat (b c : Bool) : (b && !c).toNat = b.toNat - c.toNat := by
  cases b <;> cases c <;> rfl

theorem flag_cases (b : Bool) (P : Prop) (same : b = true ↔ P) : b.toNat = 1 ∧ P ∨ b.toNat = 0 ∧ ¬P := by
  cases b with
  | true => exact .inl ⟨rfl, same.mp rfl⟩
  | false => exact .inr ⟨rfl, fun holds => Bool.false_ne_true (same.mpr holds)⟩

/-- A step that is not part of `watch` and leaves the driver as it was. -/
theorem sound_plain (sound : s.Sound leaks) (found : s.threads[i]? = some t) (acts : t.acts = a :: rest)
    (threads : s'.threads = (s.setThread i { t with acts := rest }).threads)
    (drivers : s'.body.drivers = s.body.drivers) (isOpen : s'.body.isOpen = s.body.isOpen)
    (kind : a = .fetchSub ∨ a = .osClose ∨ a = .delete) (tally : s'.Tally leaks) : s'.Sound leaks := by
  have placed := sound.placed i t found
  obtain ⟨add, append, remove, notify⟩ : a ≠ .addListener ∧ (∀ e, a ≠ .append e) ∧
      a ≠ .removeListener ∧ ∀ d, a ≠ .notify d := by
    rcases kind with rfl | rfl | rfl <;> simp
  have calm : Calm rest := calm_tail placed.watching acts add append
  have same : ∀ b, a ≠ b → t.acts.count b = rest.count b := by
    intro b other
    rw [acts, List.count_cons_of_ne other]
  apply sound_local sound found { t with acts := rest } threads drivers isOpen tally (.inr calm)
  · rw [same .addListener add, same .removeListener remove]
  · rw [same .addListener add]
    exact .inl (Nat.le_refl _)
  · rintro (queued | ⟨e, member⟩)
    · exact placed.chained (.inl queued)
    · exact absurd member (calm.2 e)
  · exact fun member => absurd member calm.1
  · rw [acts]
    exact List.mem_cons_of_mem _
  · intro _ registered
    exact .inr ⟨registered, fun d => Nat.add_le_add_left (Nat.le_of_eq (same (.notify d) (notify d))) _⟩
  · exact fun d => Nat.le_of_eq (same (.notify d) (notify d))

theorem sound_fetchSub (sound : s.Sound leaks) (found : s.threads[i]? = some t)
    (acts : t.acts = .fetchSub :: rest) (several : 0 < leaks.toNat ∨ 2 ≤ s.body.ref) :
    (s.exec i t rest .fetchSub).Sound leaks := by
  refine sound_plain sound found acts rfl rfl rfl (.inl rfl) ?_
  obtain ⟨holds, counts⟩ := counts_set found (s.exec i t rest .fetchSub) _ rfl
  have os := counts .osClose
  have del := counts .delete
  have last := counts (.close true)
  have spare := holds_spare found
  simp [Thread.holds, acts] at holds os del last spare
  rw [Tally, os, del, last]
  exact sound.tally.fetchSub several (by omega) (by omega)

theorem sound_osClose (sound : s.Sound leaks) (found : s.threads[i]? = some t)
    (acts : t.acts = .osClose :: rest) : (s.exec i t rest .osClose).Sound leaks := by
  refine sound_plain sound found acts rfl rfl rfl (.inr (.inl rfl)) ?_
  obtain ⟨holds, counts⟩ := counts_set found (s.exec i t rest .osClose) _ rfl
  have os := counts .osClose
  have del := counts .delete
  have last := counts (.close true)
  simp [Thread.holds, acts] at holds os del last
  rw [Tally, holds, del, last]
  exact sound.tally.osClose (by omega)

theorem sound_delete (sound : s.Sound leaks) (found : s.threads[i]? = some t)
    (acts : t.acts = .delete :: rest) : (s.exec i t rest .delete).Sound leaks := by
  refine sound_plain sound found acts rfl rfl rfl (.inr (.inr rfl)) ?_
  obtain ⟨holds, counts⟩ := counts_set found (s.exec i t rest .delete) _ rfl
  have os := counts .osClose
  have del := counts .delete
  have last := counts (.close true)
  simp [Thread.holds, acts] at holds os del last
  rw [Tally, holds, os, last]
  exact sound.tally.delete (by omega)

theorem sound_append (sound : s.Sound leaks) (found : s.threads[i]? = some t)
    (acts : t.acts = .append e :: rest) : (s.exec i t rest (.append e)).Sound leaks := by
  have placed := sound.placed i t found
  have registered : t.registered = true := placed.chained (.inr ⟨e, by simp [acts]⟩)
  have none : rest = [] := by
    rcases placed.watching with ⟨e', both | one⟩ | calm
    · simp [acts] at both
    · rw [acts] at one
      exact (List.cons.inj one).2
    · exact absurd (by simp [acts]) (calm.2 e)
  subst none
  obtain ⟨holds, counts⟩ := counts_set found (s.exec i t [] (.append e)) _ rfl
  refine sound_local sound found { t with acts := [], chain := t.chain ++ [e] } rfl rfl rfl ?_
    (.inr ⟨by simp, by simp⟩) ?_ ?_ (fun _ => registered) (by simp) (by simp)
    (fun _ _ => .inr ⟨registered, ?_⟩) ?_
  · have os := counts .osClose
    have del := counts .delete
    have last := counts (.close true)
    simp [Thread.holds, acts] at holds os del last
    rw [Tally, holds, os, del, last]
    exact sound.tally
  · simp [acts]
  · simp [acts]
  · simp [acts]
  · simp [acts]

theorem sound_addListener (sound : s.Sound leaks) (found : s.threads[i]? = some t)
    (acts : t.acts = .addListener :: rest) (isOpen : s.body.isOpen = true) :
    (s.exec i t rest .addListener).Sound leaks := by
  have placed := sound.placed i t found
  obtain ⟨e, rfl⟩ : ∃ e, rest = [.append e] := by
    rcases placed.watching with ⟨e, both | one⟩ | calm
    · rw [acts] at both
      exact ⟨e, (List.cons.inj both).2⟩
    · simp [acts] at one
    · exact absurd (by simp [acts]) calm.1
  have registered : t.registered = true := placed.chained (.inr ⟨e, by simp [acts]⟩)
  have counted := placed.balance
  have single := placed.single
  simp [acts, registered] at counted single
  obtain ⟨holds, counts⟩ := counts_set found (s.exec i t [.append e] .addListener) _ rfl
  refine sound_set sound rfl ?_ ⟨?_, ?_, .inl ⟨e, .inr rfl⟩, fun _ => registered, by simp, by simp, ?_⟩ ?_ ?_
  · have os := counts .osClose
    have del := counts .delete
    have last := counts (.close true)
    simp [Thread.holds, acts] at holds os del last
    have tally := sound.tally
    rw [Tally, isOpen] at tally
    rw [Tally, holds, os, del, last]
    simp only [exec, setThread, isOpen, List.length_append, List.length_singleton]
    exact tally.addListener
  · simp [exec, registered, counted]
  · simp [exec, counted]
  · intro closed
    simp [exec, isOpen] at closed
  · intro d listed
    simp only [exec, List.mem_append, List.mem_singleton] at listed
    rcases listed with old | rfl
    · exact .inl old
    · exact .inr (List.getElem?_eq_some_iff.mp found).1
  · intro j u other placed' _
    apply placed'.carry
    · simp [exec, other.symm]
    · exact id
    · intro closed
      simp [exec, isOpen] at closed

theorem sound_removeListener (sound : s.Sound leaks) (found : s.threads[i]? = some t)
    (acts : t.acts = .removeListener :: rest) : (s.exec i t rest .removeListener).Sound leaks := by
  have placed := sound.placed i t found
  have calm : Calm rest := calm_tail placed.watching acts (by decide) (by simp)
  have balance := placed.balance
  have single := placed.single
  have noAdd : t.acts.count .addListener = 0 := by
    rw [acts, List.count_cons_of_ne (by decide)]
    exact List.count_eq_zero.mpr calm.1
  rw [noAdd] at balance single
  rw [acts, List.count_cons_self] at balance
  have listed : i ∈ s.body.drivers := List.count_pos_iff.mp (by omega)
  have off : t.registered = false := by
    cases registered : t.registered with
    | false => rfl
    | true =>
        rw [registered, Bool.toNat_true] at balance
        omega
  have length : s.body.drivers.length = (swapErase i s.body.drivers).length + 1 := by
    rw [(swapErase_perm i s.body.drivers).length_eq, List.length_erase_of_mem listed]
    exact (Nat.sub_add_cancel (List.length_pos_of_mem listed)).symm
  have count := count_swapErase i i s.body.drivers
  rw [if_pos rfl] at count
  obtain ⟨holds, counts⟩ := counts_set found (s.exec i t rest .removeListener) _ rfl
  have after := count_after ((swapErase i s.body.drivers).isEmpty && !s.body.isOpen && s.body.base)
    ((swapErase i s.body.drivers).isEmpty && s.body.ref == 0) rest
  have closed := placed.parting (by simp [acts])
  refine sound_set sound rfl ?_ ⟨?_, ?_, .inr ?_, ?_, ?_, fun _ => closed, ?_⟩ ?_ ?_
  · have os := counts .osClose
    have del := counts .delete
    have last := counts (.close true)
    rw [acts, after] at os del last
    rw [Thread.holds, Thread.holds, after, after, acts] at holds
    simp at os del last holds
    rw [Nat.add_comm (List.count _ _), ← Nat.add_assoc, Nat.add_right_cancel_iff] at os del
    have tally := sound.tally
    rw [Tally, length] at tally
    rw [Tally, holds, os, del, last]
    simp only [exec, removeSection, and_not_toNat]
    apply tally.removeListener
    · rw [closed]
      rfl
    · apply flag_cases
      simp [and_assoc]
    · apply flag_cases
      simp
  · simp only [exec, removeSection]
    rw [after, after, List.count_eq_zero.mpr calm.1, off]
    simp
    omega
  · simp only [exec, removeSection]
    rw [after, List.count_eq_zero.mpr calm.1]
    simp
    omega
  · refine (Calm.append (Calm.append ?_ ?_) calm)
    · constructor <;> simp
    · constructor <;> simp
  · rintro (queued | ⟨e, member⟩)
    · exact placed.chained (.inl queued)
    · exfalso
      simp at member
      exact calm.2 e member
  · intro member
    exfalso
    simp at member
    exact calm.1 member
  · intro _ registered
    rw [off] at registered
    contradiction
  · intro d remains
    exact .inl (mem_of_mem_swapErase remains)
  · intro j u other placed' _
    apply placed'.carry
    · have count := count_swapErase i j s.body.drivers
      rw [if_neg other.symm, Nat.sub_zero] at count
      exact count
    · exact id
    · intro closed _ _
      have note := counts (.notify j)
      rw [acts, after] at note
      simp at note
      exact .inl ⟨closed, by omega⟩

/-- The drivers that `close` tells. -/
def noted (b : Body) : List Nat := if b.isOpen && b.base then b.drivers else []

theorem close_after (b : Body) (deletable : Bool) (rest : List Act) :
    (if (b.isOpen && b.base && (if b.isOpen then b.drivers else []).isEmpty) = true then [Act.osClose]
      else if (b.isOpen && b.base) = true then (if b.isOpen then b.drivers else []).map .notify
      else []) ++ (if deletable = true then [.delete] else []) ++ rest =
    (noted b).map .notify ++ ((if (b.isOpen && b.base && b.drivers.isEmpty) = true then [.osClose]
      else []) ++ (if deletable = true then [.delete] else []) ++ rest) := by
  unfold noted
  cases b.isOpen <;> cases b.base <;> cases b.drivers <;> simp

theorem count_notes (ds : List Nat) (a : Act) (other : ∀ d, a ≠ .notify d) :
    (ds.map Act.notify).count a = 0 := by
  rw [List.count_eq_zero, List.mem_map]
  rintro ⟨d, _, same⟩
  exact other d same.symm

theorem count_told (ds : List Nat) (j : Nat) : (ds.map Act.notify).count (.notify j) = ds.count j :=
  List.count_map_of_injective ds Act.notify (fun _ _ same => Act.notify.inj same) j

/-- What `close` leaves to do, the notices apart. -/
theorem count_rest (ds : List Nat) (c d : Bool) (rest : List Act) (a : Act) (other : ∀ d, a ≠ .notify d) :
    (ds.map Act.notify ++ ((if c = true then [Act.osClose] else []) ++
      (if d = true then [Act.delete] else []) ++ rest)).count a =
      rest.count a + (if a = .osClose then c.toNat else 0) + (if a = .delete then d.toNat else 0) := by
  rw [List.count_append, count_notes ds a other, count_after, Nat.zero_add]

/-- What there is to do after the section of `close`. -/
structure Closing (s s' : State) (becauseDeref : Bool) : Prop where
  osClose : s'.pending .osClose = s.pending .osClose +
    (s.body.isOpen && s.body.base && s.body.drivers.isEmpty).toNat
  delete : s'.pending .delete = s.pending .delete + (becauseDeref && s.body.drivers.isEmpty).toNat
  last : s'.pending (.close true) + becauseDeref.toNat = s.pending (.close true)
  held : total Thread.holds s'.threads + becauseDeref.toNat = total Thread.holds s.threads
  notes : ∀ j, s'.pending (.notify j) = s.pending (.notify j) + (noted s.body).count j

theorem exec_closing (found : s.threads[i]? = some t) (becauseDeref : Bool)
    (acts : t.acts = .close becauseDeref :: rest) :
    Closing s (s.exec i t rest (.close becauseDeref)) becauseDeref := by
  have after := count_after (s.body.isOpen && s.body.base && s.body.drivers.isEmpty)
    (becauseDeref && s.body.drivers.isEmpty) rest
  have whole := close_after s.body (becauseDeref && s.body.drivers.isEmpty) rest
  obtain ⟨holds, counts⟩ := counts_set found (s.exec i t rest (.close becauseDeref)) _ rfl
  simp only [Thread.holds] at counts holds
  rw [whole] at counts holds
  rw [acts] at counts holds
  constructor
  · have os := counts .osClose
    simp (disch := simp) only [count_rest] at os
    simp at os
    omega
  · have del := counts .delete
    simp (disch := simp) only [count_rest] at del
    simp at del
    omega
  · have last := counts (.close true)
    simp (disch := simp) only [count_rest] at last
    cases becauseDeref <;> simp at last ⊢ <;> omega
  · simp (disch := simp) only [count_rest] at holds
    cases becauseDeref <;> simp at holds ⊢ <;> omega
  · intro j
    have note := counts (.notify j)
    rw [List.count_append, after, count_told, List.count_cons_of_ne (by simp)] at note
    simp at note
    omega

theorem tally_close (tally : s.Tally leaks) (becauseDeref : Bool)
    (closing : Closing s (s.exec i t rest (.close becauseDeref)) becauseDeref) :
    (s.exec i t rest (.close becauseDeref)).Tally leaks := by
  have drop : becauseDeref.toNat = 0 ∨ becauseDeref.toNat = 1 ∧ 0 < s.pending (.close true) := by
    have last := closing.last
    cases becauseDeref with
    | false => exact .inl rfl
    | true =>
        rw [Bool.toNat_true] at last
        exact .inr ⟨rfl, by omega⟩
  have base : (s.exec i t rest (.close becauseDeref)).body.base.toNat =
      s.body.base.toNat - (s.body.isOpen && s.body.base && s.body.drivers.isEmpty).toNat := by
    rw [← and_not_toNat]
    simp only [exec, closeSection]
    cases s.body.isOpen <;> rfl
  have ref : (s.exec i t rest (.close becauseDeref)).body.ref = s.body.ref - becauseDeref.toNat := by
    cases becauseDeref <;> rfl
  rw [Tally, base, ref, closing.osClose, closing.delete]
  apply tally.close drop closing.held closing.last
  · apply flag_cases
    cases s.body.isOpen <;> simp [and_comm]
  · apply flag_cases
    simp [and_comm]
  · exact Bool.toNat_le _

theorem sound_close (sound : s.Sound leaks) (found : s.threads[i]? = some t) (becauseDeref : Bool)
    (acts : t.acts = .close becauseDeref :: rest) :
    (s.exec i t rest (.close becauseDeref)).Sound leaks := by
  have placed := sound.placed i t found
  have calm : Calm rest := calm_tail placed.watching acts (by simp) (by simp)
  have whole := close_after s.body (becauseDeref && s.body.drivers.isEmpty) rest
  have closing := exec_closing found becauseDeref acts
  have told : ∀ j, j ∈ s.body.drivers → s.body.isOpen = false ∨
      0 < (s.exec i t rest (.close becauseDeref)).pending (.notify j) := by
    intro j listed
    cases isOpen : s.body.isOpen with
    | false => exact .inl rfl
    | true =>
        have base := sound.tally.opens (by rw [isOpen]; exact Nat.one_pos)
        have base : s.body.base = true := by simpa using base
        have member : 0 < (noted s.body).count j := by
          rw [List.count_pos_iff, noted, isOpen, base]
          exact listed
        rw [closing.notes j]
        exact .inr (by omega)
  refine sound_set sound rfl ?_ ⟨?_, ?_, .inr ?_, ?_, ?_, fun _ => rfl, ?_⟩ ?_ ?_
  · exact tally_close sound.tally becauseDeref closing
  · have before := placed.balance
    rw [acts] at before
    simp only [exec, closeSection]
    rw [whole]
    simp (disch := simp) only [count_rest]
    simp at before ⊢
    exact before
  · have before := placed.single
    rw [acts] at before
    simp only [exec, closeSection]
    rw [whole]
    simp (disch := simp) only [count_rest]
    simp at before ⊢
    exact before
  · rw [whole]
    refine Calm.append ?_ (Calm.append (Calm.append ?_ ?_) calm)
    · constructor <;> simp
    · constructor <;> simp
    · constructor <;> simp
  · rw [whole]
    rintro (queued | ⟨e, member⟩)
    · exact placed.chained (.inl queued)
    · exfalso
      simp at member
      exact calm.2 e member
  · rw [whole]
    intro member
    exfalso
    simp at member
    exact calm.1 member
  · intro _ registered listed
    rcases told i listed with closed | heard
    · have before := placed.told closed registered listed
      rw [closing.notes i]
      show 0 < t.closing + _
      omega
    · exact Nat.add_pos_right _ heard
  · exact fun d listed => .inl listed
  · intro j u other placed' _
    apply placed'.carry
    · rfl
    · exact fun _ => rfl
    · intro _ listed _
      rcases told j listed with closed | heard
      · exact .inl ⟨closed, by rw [closing.notes j]; omega⟩
      · exact .inr (by omega)

/-- Notices to the thread's own driver are the only thing taken from its acts. -/
theorem sound_notifyClose (sound : s.Sound leaks) (found : s.threads[i]? = some t) (calm : Calm rest)
    (u : Thread) (refs : u.refs = t.refs) (registered : u.registered = t.registered)
    (chain : u.chain = t.chain) (same : ∀ a, a ≠ .notify i → t.acts.count a = rest.count a) :
    (s.notifyClose i u rest).Sound leaks := by
  have placed := sound.placed i t found
  have balance := placed.balance
  have single := placed.single
  rw [same _ (by simp)] at balance single
  rw [same _ (by simp)] at balance
  have others : ∀ (s' : State) (t' : Thread), s'.threads = (s.setThread i t').threads →
      s'.body = s.body → t'.refs = t.refs → (∀ a, a ≠ .removeListener → t'.acts.count a = rest.count a) →
      s'.Placed i t' → s'.Sound leaks := by
    intro s' t' threads body refs acts mine
    obtain ⟨holds, counts⟩ := counts_set found _ _ threads
    have kept : ∀ a, a ≠ .removeListener → a ≠ .notify i → s'.pending a = s.pending a := by
      intro a remove notify
      have count := counts a
      rw [acts a remove, same a notify] at count
      omega
    apply sound_set sound threads
    · rw [Tally, body, kept .osClose (by simp) (by simp), kept .delete (by simp) (by simp),
        kept (.close true) (by simp) (by simp)]
      have held : total Thread.holds s'.threads = total Thread.holds s.threads := by
        rw [Thread.holds, Thread.holds, refs, acts _ (by simp), acts _ (by simp), same _ (by simp),
          same _ (by simp)] at holds
        exact Nat.add_right_cancel holds
      rw [held]
      exact sound.tally
    · exact mine
    · intro d listed
      rw [body] at listed
      exact .inl listed
    · intro j v other placed' _
      apply placed'.carry
      · rw [body]
      · rw [body]
        exact id
      · intro closed _ _
        rw [body] at closed
        rw [kept (.notify j) (by simp) (by simpa using other)]
        exact .inl ⟨closed, Nat.le_refl _⟩
  unfold notifyClose
  split
  · rename_i told
    rw [Bool.and_eq_true, registered] at told
    refine others _ { u with registered := false, chain := [], acts := .removeListener :: rest } rfl rfl refs ?_ ?_
    · intro a remove
      exact List.count_cons_of_ne remove.symm
    · rw [told.1, Bool.toNat_true] at balance
      refine ⟨?_, ?_, .inr ⟨?_, ?_⟩, ?_, fun _ => rfl, ?_, ?_⟩
      · simp [setThread]
        omega
      · simpa [setThread] using single
      · simpa using calm.1
      · simpa using calm.2
      · rintro (queued | ⟨e, member⟩)
        · contradiction
        · simp at member
          exact absurd member (calm.2 e)
      · intro _
        exact Bool.not_eq_eq_eq_not.mp told.2
      · intro _ registered
        contradiction
  · rename_i quiet
    rw [Bool.and_eq_true, registered] at quiet
    apply others _ { u with acts := rest } rfl rfl refs (fun _ _ => rfl)
    refine ⟨?_, ?_, .inr calm, ?_, fun member => absurd member calm.1, ?_, ?_⟩
    · simpa [setThread, registered] using balance
    · exact single
    · rintro (queued | ⟨e, member⟩)
      · rw [chain] at queued
        rw [registered]
        exact placed.chained (.inl queued)
      · exact absurd member (calm.2 e)
    · intro member
      apply placed.parting
      rw [← List.count_pos_iff, same _ (by simp)]
      exact List.count_pos_iff.mpr member
    · intro closed told _
      exact absurd ⟨by rw [← registered]; exact told, by simpa [setThread] using closed⟩ quiet

/-- A notice whose driver already knows of the close is no longer needed. -/
theorem sound_noted (sound : s.Sound leaks) (found : s.threads[i]? = some t) (d : Nat)
    (acts : t.acts = .notify d :: rest) (other : d ≠ i)
    (knows : ∀ u, s.threads[d]? = some u → 0 < u.closing) :
    (s.setThread i { t with acts := rest }).Sound leaks := by
  have placed := sound.placed i t found
  have calm : Calm rest := calm_tail placed.watching acts (by simp) (by simp)
  have same : ∀ a, a ≠ .notify d → t.acts.count a = rest.count a := by
    intro a other
    rw [acts, List.count_cons_of_ne other.symm]
  obtain ⟨holds, counts⟩ := counts_set found _ { t with acts := rest } rfl
  have kept : ∀ a, a ≠ .notify d → (s.setThread i { t with acts := rest }).pending a = s.pending a := by
    intro a other
    have count := counts a
    rw [same a other] at count
    exact Nat.add_right_cancel count
  refine sound_set sound rfl ?_ ⟨?_, ?_, .inr calm, ?_, fun member => absurd member calm.1, ?_, ?_⟩ ?_ ?_
  · rw [Thread.holds, Thread.holds, same _ (by simp), same _ (by simp)] at holds
    rw [Tally, kept .osClose (by simp), kept .delete (by simp), kept (.close true) (by simp),
      Nat.add_right_cancel holds]
    exact sound.tally
  · have before := placed.balance
    rw [same _ (by simp), same _ (by simp)] at before
    exact before
  · have before := placed.single
    rw [same _ (by simp)] at before
    exact before
  · rintro (queued | ⟨e, member⟩)
    · exact placed.chained (.inl queued)
    · exact absurd member (calm.2 e)
  · exact fun member => placed.parting (by rw [acts]; exact List.mem_cons_of_mem _ member)
  · intro closed registered listed
    rw [kept (.notify i) (by simpa using other.symm)]
    exact placed.told closed registered listed
  · exact fun _ listed => .inl listed
  · intro j u _ placed' at_j
    apply placed'.carry
    · rfl
    · exact id
    · intro closed _ _
      by_cases told : j = d
      · subst told
        exact .inr (Nat.add_pos_left (knows u at_j) _)
      · rw [kept (.notify j) (by simpa using told)]
        exact .inl ⟨closed, Nat.le_refl _⟩

/-- A driver that has one more entry to process. -/
theorem sound_closing (sound : s.Sound leaks) (found : s.threads[i]? = some t) :
    (s.setThread i { t with closing := t.closing + 1 }).Sound leaks := by
  have placed := sound.placed i t found
  obtain ⟨holds, counts⟩ := counts_set found _ { t with closing := t.closing + 1 } rfl
  refine sound_local sound found { t with closing := t.closing + 1 } rfl rfl rfl ?_ placed.watching
    rfl (.inl (Nat.le_refl _)) placed.chained placed.fresh id ?_ (fun _ => Nat.le_refl _)
  · have kept : ∀ a, (s.setThread i { t with closing := t.closing + 1 }).pending a = s.pending a :=
      fun a => Nat.add_right_cancel (counts a)
    rw [Tally, kept, kept, kept, Nat.add_right_cancel holds]
    exact sound.tally
  · intro _ registered
    exact .inr ⟨registered, fun d => Nat.add_le_add_right (Nat.le_succ _) _⟩

/-- Another driver is told. -/
theorem sound_migrateClose (sound : s.Sound leaks) (found : s.threads[i]? = some t) (d : Nat)
    (acts : t.acts = .notify d :: rest) (other : d ≠ i) :
    ((s.setThread i { t with acts := rest }).migrateClose d).Sound leaks := by
  unfold migrateClose
  rw [setThread_ne other]
  cases told : s.threads[d]? with
  | none => exact sound_noted sound found d acts other (by simp [told])
  | some u =>
      have known := sound_closing sound told
      have done := sound_noted known (by rw [setThread_ne other.symm]; exact found) d acts other (by
        intro v at_d
        rw [setThread_get told] at at_d
        cases at_d
        exact Nat.succ_pos _)
      simp only [setThread] at done ⊢
      rw [List.set_comm _ _ other.symm]
      exact done

theorem sound_notify (sound : s.Sound leaks) (found : s.threads[i]? = some t) (d : Nat)
    (acts : t.acts = .notify d :: rest) : (s.exec i t rest (.notify d)).Sound leaks := by
  have placed := sound.placed i t found
  have calm : Calm rest := calm_tail placed.watching acts (by simp) (by simp)
  simp only [exec]
  split
  · rename_i own
    subst own
    apply sound_notifyClose sound found calm t rfl rfl rfl
    intro a other
    rw [acts, List.count_cons_of_ne other.symm]
  · rename_i other
    exact sound_migrateClose sound found d acts other

/-! The steps that start something. -/

/-- Only the numbers of `cot::fd` objects change. -/
theorem sound_refs (sound : s.Sound leaks) (drivers : s'.body.drivers = s.body.drivers)
    (isOpen : s'.body.isOpen = s.body.isOpen) (tally : s'.Tally leaks)
    (length : s'.threads.length = s.threads.length) (pending : ∀ a, s'.pending a = s.pending a)
    (threads : ∀ (j : Nat) (u' : Thread), s'.threads[j]? = some u' →
      ∃ u : Thread, ∃ n, s.threads[j]? = some u ∧ u' = { u with refs := n }) : s'.Sound leaks where
  tally := tally
  valid d listed := by
    rw [length]
    exact sound.valid d (drivers ▸ listed)
  placed j u' found := by
    obtain ⟨u, n, before, rfl⟩ := threads j u' found
    have placed := sound.placed j u before
    constructor
    · rw [drivers]
      exact placed.balance
    · rw [drivers]
      exact placed.single
    · exact placed.watching
    · exact placed.chained
    · exact placed.fresh
    · rw [isOpen]
      exact placed.parting
    · rw [isOpen, drivers, pending]
      exact placed.told

theorem refs_set (found : s.threads[i]? = some t) (n : Nat) :
    ∀ (j : Nat) (u' : Thread), (s.setThread i { t with refs := n }).threads[j]? = some u' →
      ∃ u : Thread, ∃ n, s.threads[j]? = some u ∧ u' = { u with refs := n } := by
  intro j u' after
  by_cases same : j = i
  · subst same
    rw [setThread_get found] at after
    exact ⟨t, n, found, (Option.some.inj after).symm⟩
  · rw [setThread_ne same] at after
    exact ⟨u', u'.refs, after, rfl⟩

theorem sound_copy (sound : s.Sound leaks) (found : s.threads[i]? = some t) (some_ref : 0 < t.refs) :
    State.Sound { s.setThread i { t with refs := t.refs + 1 } with
      body := { s.body with ref := s.body.ref + 1 } } leaks := by
  have spare := holds_spare found
  have count : ∀ a, (s.setThread i { t with refs := t.refs + 1 }).pending a = s.pending a :=
    fun a => Nat.add_right_cancel (pending_set found { t with refs := t.refs + 1 } a)
  refine sound_refs sound rfl rfl ?_ ?_ ?_ ?_
  · have holds := holds_set found { t with refs := t.refs + 1 }
    have more : Thread.holds { t with refs := t.refs + 1 } = t.holds + 1 := by
      simp only [Thread.holds]
      omega
    have held : total Thread.holds (s.setThread i { t with refs := t.refs + 1 }).threads =
        total Thread.holds s.threads + 1 := by omega
    have tally := sound.tally.copy (by omega)
    rw [← held, ← count, ← count, ← count] at tally
    exact tally
  · simp [setThread]
  · exact count
  · exact refs_set found _

/-- An idle thread starts what is not `watch`. -/
theorem sound_starts (sound : s.Sound leaks) (found : s.threads[i]? = some t) (idle : t.acts = [])
    (u : Thread) (registered : u.registered = t.registered) (closing : u.closing = t.closing)
    (chain : ∀ e ∈ u.chain, e ∈ t.chain)
    (acts : .removeListener ∉ u.acts) (calm : Calm u.acts)
    (threads : s'.threads = (s.setThread i u).threads) (body : s'.body = s.body) (tally : s'.Tally leaks) :
    s'.Sound leaks := by
  have placed := sound.placed i t found
  refine sound_local sound found u threads (by rw [body]) (by rw [body]) tally (.inr calm) ?_
    (.inl ?_) ?_ (fun member => absurd member calm.1) (fun member => absurd member acts) ?_ ?_
  · rw [List.count_eq_zero.mpr calm.1, List.count_eq_zero.mpr acts, idle, registered]
    rfl
  · rw [List.count_eq_zero.mpr calm.1]
    exact Nat.zero_le _
  · rintro (queued | ⟨e, member⟩)
    · obtain ⟨e, member⟩ := List.exists_mem_of_ne_nil _ queued
      rw [registered]
      exact placed.chained (.inl (List.ne_nil_of_mem (chain e member)))
    · exact absurd member (calm.2 e)
  · intro _ listed
    rw [registered] at listed
    refine .inr ⟨listed, fun d => ?_⟩
    rw [closing, idle]
    exact Nat.le_add_right _ _
  · intro d
    rw [idle]
    exact Nat.zero_le _

/-- Starting `deref`: the reference is dropped, or is the last one and is given to `close`. -/
theorem sound_drop (sound : s.Sound leaks) (found : s.threads[i]? = some t) (idle : t.acts = [])
    (held : 0 < t.refs) :
    (s.setThread i { t with
      refs := t.refs - 1, acts := [if s.body.ref = 1 then .close true else .fetchSub] }).Sound leaks := by
  have spare := holds_spare found
  by_cases sole : s.body.ref = 1
  · rw [if_pos sole]
    obtain ⟨holds, counts⟩ := counts_set found _ { t with
      refs := t.refs - 1, acts := [.close true] } rfl
    have os := counts .osClose
    have del := counts .delete
    have last := counts (.close true)
    refine sound_starts sound found idle { t with refs := t.refs - 1, acts := [.close true] } rfl rfl
      (fun _ => id) (by simp) ?_ rfl rfl ?_
    · constructor <;> simp
    · simp [Thread.holds, idle] at holds os del last
      rw [Tally, os, del, last, show total _ _ = total Thread.holds s.threads from by omega]
      exact sound.tally.dropLast (by omega) sole
  · rw [if_neg sole]
    obtain ⟨holds, counts⟩ := counts_set found _ { t with
      refs := t.refs - 1, acts := [.fetchSub] } rfl
    have os := counts .osClose
    have del := counts .delete
    have last := counts (.close true)
    refine sound_starts sound found idle { t with refs := t.refs - 1, acts := [.fetchSub] } rfl rfl
      (fun _ => id) (by simp) ?_ rfl rfl ?_
    · constructor <;> simp
    · simp [Thread.holds, idle] at holds os del last
      rw [Tally, os, del, last, show total _ _ = total Thread.holds s.threads from by omega]
      exact sound.tally

theorem sound_startClose (sound : s.Sound leaks) (found : s.threads[i]? = some t) (idle : t.acts = []) :
    (s.setThread i { t with acts := [.close false] }).Sound leaks := by
  obtain ⟨holds, counts⟩ := counts_set found _ { t with acts := [.close false] } rfl
  have os := counts .osClose
  have del := counts .delete
  have last := counts (.close true)
  refine sound_starts sound found idle { t with acts := [.close false] } rfl rfl (fun _ => id) (by simp)
    ?_ rfl rfl ?_
  · constructor <;> simp
  · simp [Thread.holds, idle] at holds os del last
    rw [Tally, holds, os, del, last]
    exact sound.tally

/-- `file_event` on an open descriptor, for a driver that has it registered. -/
theorem sound_watchAgain (sound : s.Sound leaks) (found : s.threads[i]? = some t) (idle : t.acts = [])
    (registered : t.registered = true) (e : Nat)
    (threads : s'.threads = (s.setThread i { t with acts := [.append e] }).threads)
    (body : s'.body = s.body) : s'.Sound leaks := by
  obtain ⟨holds, counts⟩ := counts_set found _ { t with acts := [.append e] } threads
  have os := counts .osClose
  have del := counts .delete
  have last := counts (.close true)
  refine sound_local sound found { t with acts := [.append e] } threads (by rw [body]) (by rw [body]) ?_
    (.inl ⟨e, .inr rfl⟩) ?_ (.inl ?_) (fun _ => registered) (by simp) (by simp)
    (fun _ _ => .inr ⟨registered, ?_⟩) ?_
  · simp [Thread.holds, idle] at holds os del last
    rw [Tally, holds, os, del, last, body]
    exact sound.tally
  · simp [idle]
  · simp
  · simp [idle]
  · simp [idle]

/-- `file_event` on an open descriptor, for a driver that has not registered it. -/
theorem sound_watchFirst (sound : s.Sound leaks) (found : s.threads[i]? = some t) (idle : t.acts = [])
    (isOpen : s.body.isOpen = true) (fresh : t.registered = false) (e : Nat)
    (threads : s'.threads =
      (s.setThread i { t with registered := true, acts := [.addListener, .append e] }).threads)
    (body : s'.body = s.body) : s'.Sound leaks := by
  have placed := sound.placed i t found
  have balance := placed.balance
  rw [idle, fresh] at balance
  have empty : t.chain = [] := by
    by_contra queued
    have registered := placed.chained (.inl queued)
    rw [fresh] at registered
    contradiction
  obtain ⟨holds, counts⟩ := counts_set found _ { t with registered := true, acts := [.addListener, .append e] } threads
  have os := counts .osClose
  have del := counts .delete
  have last := counts (.close true)
  refine sound_local sound found { t with registered := true, acts := [.addListener, .append e] } threads
    (by rw [body]) (by rw [body]) ?_ (.inl ⟨e, .inl rfl⟩) ?_ (.inr ⟨?_, ?_⟩) (fun _ => rfl)
    (fun _ => empty) (by simp) ?_ ?_
  · simp [Thread.holds, idle] at holds os del last
    rw [Tally, holds, os, del, last, body]
    exact sound.tally
  · simp [idle, fresh]
  · exact List.count_eq_zero.mp balance
  · simp
  · intro closed
    rw [isOpen] at closed
    contradiction
  · simp [idle]

theorem sound_fire (sound : s.Sound leaks) (found : s.threads[i]? = some t) (idle : t.acts = [])
    (taken : List Nat)
    (threads : s'.threads = (s.setThread i { t with chain := t.chain.filter (· ∉ taken) }).threads)
    (body : s'.body = s.body) : s'.Sound leaks := by
  obtain ⟨holds, counts⟩ := counts_set found _ { t with chain := t.chain.filter (· ∉ taken) } threads
  have kept : ∀ a, s'.pending a = s.pending a := fun a => Nat.add_right_cancel (counts a)
  refine sound_starts sound found idle { t with chain := t.chain.filter (· ∉ taken) } rfl rfl
    (fun e member => (List.mem_filter.mp member).1) (by simp [idle]) (by simp [idle, Calm]) threads body ?_
  rw [Tally, kept, kept, kept, Nat.add_right_cancel holds, body]
  exact sound.tally

/-- An entry taken by `finish_migrate`. -/
theorem sound_process (sound : s.Sound leaks) (found : s.threads[i]? = some t) (idle : t.acts = []) :
    (s.notifyClose i { t with closing := t.closing - 1 } []).Sound leaks := by
  apply sound_notifyClose sound found
  · constructor <;> simp
  · rfl
  · rfl
  · rfl
  · rw [idle]
    exact fun _ _ => rfl

theorem sound_spawn (sound : s.Sound leaks) : State.Sound { s with threads := s.threads ++ [{}] } leaks := by
  have pending : ∀ a, pending a { s with threads := s.threads ++ [{}] } = s.pending a :=
    fun a => total_append s.threads [{}]
  have holds : total Thread.holds (s.threads ++ [({} : Thread)]) = total Thread.holds s.threads :=
    total_append s.threads [{}]
  constructor
  · rw [Tally, pending, pending, pending]
    simp only [holds]
    exact sound.tally
  · intro d listed
    rw [List.length_append]
    exact Nat.lt_add_right _ (sound.valid d listed)
  · intro j u found
    by_cases old : j < s.threads.length
    · rw [List.getElem?_append_left old] at found
      apply (sound.placed j u found).carry
      · rfl
      · exact id
      · intro closed _ _
        exact .inl ⟨closed, Nat.le_of_eq (pending _).symm⟩
    · rw [List.getElem?_append_right (Nat.le_of_not_lt old)] at found
      have none : j ∉ s.body.drivers := fun listed => old (sound.valid j listed)
      have new : u = {} := by
        have member := List.mem_of_getElem? found
        simpa using member
      subst new
      have count := List.count_eq_zero.mpr none
      refine ⟨by simpa using count, ?_, .inr ?_, ?_, by simp, by simp, ?_⟩
      · simp [count]
      · constructor <;> simp
      · simp
      · intro _ registered
        contradiction

/-- An `fd` object is moved to another thread. -/
theorem sound_give (sound : s.Sound leaks) (found : s.threads[i]? = some t) (foundj : s.threads[j]? = some u)
    (other : i ≠ j) (held : 0 < t.refs) :
    ((s.setThread i { t with refs := t.refs - 1 }).setThread j { u with refs := u.refs + 1 }).Sound leaks := by
  have foundj' : (s.setThread i { t with refs := t.refs - 1 }).threads[j]? = some u := by
    rw [setThread_ne other.symm]
    exact foundj
  obtain ⟨holds, counts⟩ := counts_set found _ { t with refs := t.refs - 1 } rfl
  obtain ⟨holds', counts'⟩ := counts_set foundj' _ { u with refs := u.refs + 1 } rfl
  have kept : ∀ a, ((s.setThread i { t with refs := t.refs - 1 }).setThread j
      { u with refs := u.refs + 1 }).pending a = s.pending a := by
    intro a
    rw [Nat.add_right_cancel (counts' a), Nat.add_right_cancel (counts a)]
  refine sound_refs sound rfl rfl ?_ (by simp [setThread]) kept ?_
  · simp only [Thread.holds] at holds holds'
    rw [Tally, kept, kept, kept, show total Thread.holds _ = total Thread.holds s.threads from by omega]
    exact sound.tally
  · intro k v at_k
    obtain ⟨v', n, before, rfl⟩ := refs_set foundj' _ k v at_k
    obtain ⟨v'', m, first, rfl⟩ := refs_set found _ k v' before
    exact ⟨v'', n, first, rfl⟩

instance : ∀ l, Decidable (s.Prompt l)
  | .act i => inferInstanceAs (Decidable (∀ t ∈ s.threads[i]?, _))
  | .spawn | .copy _ | .give _ _ | .drop _ | .close _ | .watch _ _ | .fire _ _ | .process _ =>
    isTrue trivial

instance : ∀ l, Decidable (s.Shared l)
  | .act i => inferInstanceAs (Decidable (∀ t ∈ s.threads[i]?, _))
  | .spawn | .copy _ | .give _ _ | .drop _ | .close _ | .watch _ _ | .fire _ _ | .process _ =>
    isTrue trivial

instance : Decidable (s.Careful l) := inferInstanceAs (Decidable (_ ∧ _))

theorem sound_exec (sound : s.Sound leaks) (found : s.threads[i]? = some t) (acts : t.acts = a :: rest)
    (prompt : s.Prompt (.act i)) (shared : leaks = true ∨ s.Shared (.act i)) :
    (s.exec i t rest a).Sound leaks := by
  have isOpen := prompt t found
  have several : t.acts.head? = some .fetchSub → 0 < leaks.toNat ∨ 2 ≤ s.body.ref := by
    intro first
    rcases shared with rfl | shared
    · exact .inl Nat.one_pos
    · exact .inr (shared t found first)
  rw [acts] at several isOpen
  cases a with
  | fetchSub => exact sound_fetchSub sound found acts (several rfl)
  | close becauseDeref => exact sound_close sound found becauseDeref acts
  | addListener => exact sound_addListener sound found acts (isOpen rfl)
  | append e => exact sound_append sound found acts
  | removeListener => exact sound_removeListener sound found acts
  | osClose => exact sound_osClose sound found acts
  | notify d => exact sound_notify sound found d acts
  | delete => exact sound_delete sound found acts

theorem sound_watch (sound : s.Sound leaks) (found : s.threads[i]? = some t) (idle : t.acts = [])
    (noMask : Bool) (moved : s.start i t (.watch i noMask) = some s') : s'.Sound leaks := by
  simp only [start, Option.ite_none_right_eq_some, Option.some.injEq] at moved
  obtain ⟨_, rfl⟩ := moved
  split
  · refine sound_starts sound found idle t rfl rfl (fun _ => id) (by simp [idle]) (by simp [idle, Calm])
      rfl rfl ?_
    obtain ⟨holds, counts⟩ := counts_set found _ t rfl
    have kept : ∀ a, (s.setThread i t).pending a = s.pending a := fun a => Nat.add_right_cancel (counts a)
    have tally := sound.tally
    rw [Tally, ← kept, ← kept, ← kept, ← Nat.add_right_cancel holds] at tally
    exact tally
  · rename_i readable
    rw [Bool.or_eq_true, not_or, Bool.not_eq_true, Bool.not_eq_false'] at readable
    split
    · rename_i registered
      exact sound_watchAgain sound found idle registered _ rfl rfl
    · rename_i fresh
      exact sound_watchFirst sound found idle readable.1 (by simpa using fresh) _ rfl rfl

theorem sound_start (sound : s.Sound leaks) (found : s.threads[i]? = some t) (idle : t.acts = [])
    (caller : l.caller = some i) (moved : s.start i t l = some s') : s'.Sound leaks := by
  cases l with
  | copy _ =>
      simp only [start, Option.ite_none_right_eq_some, Option.some.injEq] at moved
      obtain ⟨held, rfl⟩ := moved
      exact sound_copy sound found held
  | drop _ =>
      simp only [start, Option.ite_none_right_eq_some, Option.some.injEq] at moved
      obtain ⟨held, rfl⟩ := moved
      exact sound_drop sound found idle held
  | close _ =>
      simp only [start, Option.ite_none_right_eq_some, Option.some.injEq] at moved
      obtain ⟨_, rfl⟩ := moved
      exact sound_startClose sound found idle
  | watch j noMask =>
      cases Option.some.inj caller
      exact sound_watch sound found idle noMask moved
  | fire _ taken =>
      cases Option.some.inj moved
      exact sound_fire sound found idle taken rfl rfl
  | process _ =>
      simp only [start, Option.ite_none_right_eq_some, Option.some.injEq] at moved
      obtain ⟨_, rfl⟩ := moved
      exact sound_process sound found idle
  | spawn => contradiction
  | give i j => contradiction
  | act i => contradiction

/-- A step keeps the balance. -/
theorem step_sound (sound : s.Sound leaks) (prompt : s.Prompt l) (shared : leaks = true ∨ s.Shared l)
    (moved : s.step l = some s') : s'.Sound leaks := by
  have starting : (l.caller.bind fun i => s.threads[i]?.bind fun t =>
      if t.acts = [] then s.start i t l else none) = some s' → s'.Sound leaks := by
    intro started
    obtain ⟨i, caller, rest⟩ := Option.bind_eq_some_iff.mp started
    obtain ⟨t, found, rest⟩ := Option.bind_eq_some_iff.mp rest
    obtain ⟨idle, moved⟩ := Option.ite_none_right_eq_some.mp rest
    exact sound_start sound found idle caller moved
  cases l with
  | spawn =>
      cases Option.some.inj moved
      exact sound_spawn sound
  | give i j =>
      simp only [step] at moved
      split at moved
      · rename_i t u found foundj
        obtain ⟨⟨other, held, _⟩, eq⟩ := Option.ite_none_right_eq_some.mp moved
        cases Option.some.inj eq
        exact sound_give sound found foundj other held
      · contradiction
  | act i =>
      obtain ⟨t, found, rest⟩ := Option.bind_eq_some_iff.mp moved
      split at rest
      · contradiction
      · rename_i a acts eq
        cases Option.some.inj rest
        exact sound_exec sound found eq prompt shared
  | copy i => exact starting moved
  | drop i => exact starting moved
  | close i => exact starting moved
  | watch i noMask => exact starting moved
  | fire i taken => exact starting moved
  | process i => exact starting moved

theorem sound_initial : State.Sound {} leaks := by
  constructor
  · constructor <;> simp [pending, total, Thread.holds]
  · simp
  · intro i t found
    have first : t = { refs := 1 } := by simpa using List.mem_of_getElem? found
    subst first
    refine ⟨?_, ?_, .inr ?_, ?_, by simp, by simp, ?_⟩
    · simp
    · simp
    · constructor <;> simp
    · simp
    · intro closed
      contradiction

theorem reached_sound (path : Reaches step {} ls s) (careful : Meets step Careful {} ls) :
    s.Sound false :=
  path.guarded (P := fun s => s.Sound false)
    (fun sound careful moved => step_sound sound careful.1 (.inr careful.2) moved) careful sound_initial

/-- No reference is left, and no thread has a step or a notice to process. -/
def Quiet (s : State) : Prop := ∀ t ∈ s.threads, t.refs = 0 ∧ t.acts = [] ∧ t.closing = 0

instance : Decidable s.Quiet := inferInstanceAs (Decidable (∀ t ∈ s.threads, _))

theorem quiet_pending (quiet : s.Quiet) (a : Act) : s.pending a = 0 := by
  rw [pending, total_eq_zero]
  intro t member
  rw [(quiet t member).2.1]
  rfl

/-- Once everything is quiet no driver is listed. -/
theorem quiet_unlisted (sound : s.Sound leaks) (quiet : s.Quiet) (closed : s.body.isOpen = false) :
    s.body.drivers = [] := by
  rw [List.eq_nil_iff_forall_not_mem]
  intro d listed
  obtain ⟨t, found⟩ : ∃ t, s.threads[d]? = some t :=
    ⟨_, List.getElem?_eq_getElem (sound.valid d listed)⟩
  have placed := sound.placed d t found
  obtain ⟨_, idle, none⟩ := quiet t (List.mem_of_getElem? found)
  have registered : t.registered = true := by
    have balance := placed.balance
    rw [idle] at balance
    have here := List.count_pos_iff.mpr listed
    cases registered : t.registered with
    | true => rfl
    | false =>
        rw [registered] at balance
        simp only [List.count_nil, Bool.toNat_false, Nat.add_zero] at balance
        omega
  have heard := placed.told closed registered listed
  rw [none, quiet_pending quiet] at heard
  exact absurd heard (Nat.lt_irrefl 0)

/-- The descriptor is closed once, when no driver is listed; the body is deleted once,
when it is neither referred to nor listed; and both have happened when all is quiet. -/
theorem closed_and_freed_once (path : Reaches step {} ls s) (careful : Meets step Careful {} ls) :
    s.body.closes ≤ 1 ∧ (0 < s.pending .osClose → s.body.drivers = []) ∧
      s.body.deletes ≤ 1 ∧ (0 < s.pending .delete → s.body.ref = 0 ∧ s.body.drivers = []) ∧
      (s.Quiet → s.body.closes = 1 ∧ s.body.deletes = 1) := by
  have sound := reached_sound path careful
  have tally := sound.tally
  have once := tally.once
  have deleted := tally.deleted
  refine ⟨by omega, fun closing => ?_, by omega, fun deleting => ?_, fun quiet => ?_⟩
  · exact List.length_eq_zero_iff.mp (tally.unlisted closing)
  · obtain ⟨ref, drivers, _⟩ := tally.dead (Nat.add_pos_right _ deleting)
    exact ⟨ref, List.length_eq_zero_iff.mp drivers⟩
  · have ref : s.body.ref = 0 := by
      rw [tally.counted, total_eq_zero]
      intro t member
      obtain ⟨none, idle, _⟩ := quiet t member
      rw [Thread.holds, none, idle]
      rfl
    have closed : s.body.isOpen.toNat = 0 := by
      by_contra isOpen
      rcases tally.used (Nat.pos_of_ne_zero isOpen) with leaks | held
      · contradiction
      · omega
    have drivers := quiet_unlisted sound quiet (by simpa using closed)
    have shut := tally.shut closed (by rw [drivers]; rfl)
    have unused := tally.unused ref
    rw [drivers] at unused
    simp only [quiet_pending quiet, List.length_nil, Bool.toNat_false] at once unused deleted
    omega

/-- Two threads hold a reference, one of them closes, and the other's driver has
the descriptor registered. -/
theorem closed_and_freed_once_told :
    let ls : List Label := [.spawn, .copy 0, .give 0 1, .watch 1 false, .act 1, .act 1, .close 0, .act 0,
      .act 0, .process 1, .act 1, .act 1, .drop 0, .act 0, .drop 1, .act 1, .act 1]
    ∃ s, Reaches step {} ls s ∧ s.Quiet ∧
      s.body.closes ≤ 1 ∧ (0 < s.pending .osClose → s.body.drivers = []) ∧
      s.body.deletes ≤ 1 ∧ (0 < s.pending .delete → s.body.ref = 0 ∧ s.body.drivers = []) ∧
      (s.Quiet → s.body.closes = 1 ∧ s.body.deletes = 1) := by
  intro ls
  have path : Reaches step {} ls _ := run_iff_reaches.mp rfl
  exact ⟨_, path, by decide, closed_and_freed_once path (by decide)⟩

/-- Two threads drop their references at once: each reads that the other one is
left, and nobody closes. -/
theorem dropped_together_leaks :
    ∃ s, Reaches step {} [.spawn, .copy 0, .give 0 1, .drop 0, .drop 1, .act 0, .act 1] s ∧
      s.Quiet ∧ s.body.ref = 0 ∧ s.body.closes = 0 ∧ s.body.deletes = 0 :=
  ⟨_, run_iff_reaches.mp rfl, by decide, by decide, by decide, by decide⟩

end State
end Cotamer.Fd
