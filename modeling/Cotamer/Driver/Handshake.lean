import Cotamer.Transition

/-! The handshake between threads that post to a driver and the driver that is
about to block, one access of shared memory at a time. The word `lock_` is both
the mutex of the two migration lists and the flag that says they are not empty;
`wakefd_` says whether a poster has to write to the wake descriptor. -/
namespace Cotamer.Handshake
open Transition

abbrev EventId := Nat
abbrev ThreadId := Nat

/-- `lock_`, by the bits `df_lock` and `df_nonempty`. -/
structure Word where
  locked : Bool := false
  nonempty : Bool := false
  deriving DecidableEq, Repr

/-- What is posted: `migrate_asap` or `migrate_fd_close`. -/
inductive Post where
  | asap (e : EventId)
  | fdClose (fd : Nat)
  deriving DecidableEq, Repr

/-- Where a posting thread is. `flags` is what its `lock()` returned. -/
inductive Poster where
  | idle
  | load (p : Post)
  | cas (p : Post) (flags : Word)
  | push (p : Post) (flags : Word)
  | unlock (flags : Word)
  | loadWake
  | write (fd : Nat)
  deriving DecidableEq, Repr

/-- Where the driver is in its loop. `positive` says that the timeout is. -/
inductive Place where
  | idle
  | imports                          -- the load at the top of an iteration
  | load                             -- finish_migrate
  | cas (flags : Word)
  | swap (flags : Word)
  | unlock (flags : Word) (taken : List EventId)
  | append (taken : List EventId)
  | events                           -- asap_, keepalives, clearing, updates
  | test
  | timeout
  | storeWake (positive : Bool)      -- watch_fds
  | recheck (positive : Bool)
  | wait (positive : Bool)
  | resetWake (woken : Bool)
  | process (woken : Bool)
  | timers
  deriving DecidableEq, Repr

/-- `posted` records the events pushed to `migrate_`, in order, `entered` those
moved from there to `asap_`, and `seen` what was posted when the driver last read
`lock_` at the top of an iteration. -/
structure State where
  lock : Word := {}
  migrate : List EventId := []
  migrateFdClose : List Nat := []
  wakefd : Option Nat := none        -- `none` is -1
  wakes : Nat := 0                   -- the count of the wake descriptor
  asap : List EventId := []
  posters : ThreadId → Poster := fun _ => .idle
  driver : Place := .idle
  posted : List EventId := []
  entered : List EventId := []
  seen : List EventId := []

inductive Label where
  -- threads
  | post (i : ThreadId) (p : Post)
  | poster (i : ThreadId) (spurious : Bool)
  -- the driver
  | enter
  | advance (spurious : Bool)        -- the only thing it can do next
  | take                             -- asap_.pop_front
  | asap (e : EventId)               -- asap_.emplace_back, by a coroutine
  | endEvents
  | leave
  | stay
  | skipWatch
  | watch (positive : Bool)
  | wake (woken : Bool)
  | endTimers (poll : Bool)
  deriving DecidableEq, Repr

namespace State

def setPoster (s : State) (i : ThreadId) (pc : Poster) : State :=
  { s with posters := fun j => if j = i then pc else s.posters j }

def at_ (s : State) (place : Place) : State := { s with driver := place }

def push (s : State) : Post → State
  | .asap e => { s with migrate := s.migrate ++ [e], posted := s.posted ++ [e] }
  | .fdClose fd => { s with migrateFdClose := s.migrateFdClose ++ [fd] }

/-- One access of a posting thread. `compare_exchange_weak` may fail spuriously. -/
def poster (s : State) (i : ThreadId) (spurious : Bool) : Option State :=
  match s.posters i with
  | .idle => none
  | .load p => some (s.setPoster i (if s.lock.locked then .load p else .cas p s.lock))
  | .cas p flags =>
    if s.lock = flags ∧ spurious = false then
      some ({ s with lock := { flags with locked := true } }.setPoster i (.push p flags))
    else some (s.setPoster i (.load p))
  | .push p flags => some ((s.push p).setPoster i (.unlock flags))
  | .unlock flags => some ({ s with lock := { flags with nonempty := true } }.setPoster i .loadWake)
  | .loadWake =>
    match s.wakefd with
    | none => some (s.setPoster i .idle)
    | some fd => some (s.setPoster i (.write fd))
  | .write _ => some ({ s with wakes := s.wakes + 1 }.setPoster i .idle)

/-- One access of the driver where the code leaves no choice. -/
def advance (s : State) (epollWakefd : Nat) (spurious : Bool) : Option State :=
  match s.driver with
  | .imports => some { s with seen := s.posted, driver := if s.lock = {} then .events else .load }
  | .load => some (s.at_ (if s.lock.locked then .load else .cas s.lock))
  | .cas flags =>
    if s.lock = flags ∧ spurious = false then
      some { s with lock := { flags with locked := true }, driver := .swap flags }
    else some (s.at_ .load)
  | .swap flags =>
    some { s with migrate := [], migrateFdClose := [], driver := .unlock flags s.migrate }
  | .unlock flags taken =>
    some { s with lock := { flags with nonempty := false }, driver := .append taken }
  | .append taken =>
    some { s with asap := s.asap ++ taken, entered := s.entered ++ taken, driver := .events }
  | .storeWake positive => some { s with wakefd := some epollWakefd, driver := .recheck positive }
  | .recheck positive => some (s.at_ (.wait (positive && s.lock = {})))
  | .resetWake woken => some { s with wakefd := none, driver := .process woken }
  | .process true => some { s with wakes := 0, driver := .process false }
  | .process false => some (s.at_ .timers)
  | _ => none

/-- Coroutines run while the driver takes events, reports of descriptors or timers. -/
def running (s : State) : Bool :=
  match s.driver with
  | .events | .process _ | .timers => true
  | _ => false

/-- The wake descriptor is reported only if it has been written to. What else
the kernel reports, and when the timeout expires, is arbitrary. -/
def step (epollWakefd : Nat) (s : State) : Label → Option State
  | .post i p => if s.posters i = .idle then some (s.setPoster i (.load p)) else none
  | .poster i spurious => s.poster i spurious
  | .enter => if s.driver = .idle then some (s.at_ .imports) else none
  | .advance spurious => s.advance epollWakefd spurious
  | .take => if s.driver = .events ∧ s.asap ≠ [] then some { s with asap := s.asap.tail } else none
  | .asap e => if s.running then some { s with asap := s.asap ++ [e] } else none
  | .endEvents => if s.driver = .events then some (s.at_ .test) else none
  | .leave => if s.driver = .test ∧ s.lock = {} then some (s.at_ .idle) else none
  | .stay => if s.driver = .test then some (s.at_ .timeout) else none
  | .skipWatch => if s.driver = .timeout then some (s.at_ .timers) else none
  | .watch positive =>
    if s.driver = .timeout ∧ (positive → s.asap = [] ∧ s.lock = {}) then some (s.at_ (.storeWake positive))
    else none
  | .wake woken =>
    match s.driver with
    | .wait _ => if woken → 0 < s.wakes then some (s.at_ (.resetWake woken)) else none
    | _ => none
  | .endTimers poll =>
    if s.driver = .timers then some (s.at_ (if poll then .idle else .imports)) else none

end State

/-! What holds between any two accesses. -/

/-- Inside the critical section, with the flags it will release. -/
def Poster.holds : Poster → Option Word
  | .push _ flags | .unlock flags => some flags
  | _ => none

def Place.holds : Place → Option Word
  | .swap flags | .unlock flags _ => some flags
  | _ => none

/-- Who holds the lock: the driver, or a thread. -/
def State.holder (s : State) : Option ThreadId → Option Word
  | none => s.driver.holds
  | some i => (s.posters i).holds

/-- The thread has pushed something and not yet come past the wake descriptor. -/
def Poster.Waking : Poster → Prop
  | .unlock _ | .loadWake | .write _ => True
  | _ => False

/-- Events on their way from `migrate_` to `asap_`. -/
def Place.taken : Place → List EventId
  | .unlock _ taken | .append taken => taken
  | _ => []

/-- Past the import of what was posted when the iteration began. -/
def Place.Imported : Place → Prop
  | .load | .cas _ | .swap _ => False
  | _ => True

def Poster.Clean : Poster → Prop
  | .cas _ flags => flags.locked = false
  | _ => True

def Place.Clean : Place → Prop
  | .cas flags => flags.locked = false
  | _ => True

def State.Drained (s : State) : Prop := s.migrate = [] ∧ s.migrateFdClose = []

/-- A write to the wake descriptor has been made, or some thread is about to
make it. -/
def State.Wakes (s : State) : Prop := 0 < s.wakes ∨ ∃ i, (s.posters i).Waking

/-- Only one is inside, and then the lock is taken. -/
def State.Exclusive (s : State) : Prop :=
  ∀ h flags, s.holder h = some flags → s.lock.locked = true ∧
    ∀ h' flags', s.holder h' = some flags' → h' = h

structure Sound (s : State) : Prop where
  exclusive : s.Exclusive
  posters : ∀ i, (s.posters i).Clean
  place : s.driver.Clean
  flagged : s.lock = {} → s.Drained
  swapped : ∀ flags taken, s.driver = .unlock flags taken → s.Drained
  conserved : s.posted = s.entered ++ s.driver.taken ++ s.migrate
  announced : ∀ positive, s.driver = .recheck positive ∨ s.driver = .wait positive →
    s.wakefd.isSome = true
  alert : s.driver = .wait true → s.Drained ∨ s.Wakes
  recorded : s.seen <+: s.posted
  imported : s.driver.Imported → s.seen <+: s.entered ++ s.driver.taken

variable {s t : State} {i : ThreadId} {p : Post} {pc : Poster} {flags : Word} {w : Nat} {l : Label}

@[simp] theorem setPoster_self (s : State) (i : ThreadId) (pc : Poster) :
    (s.setPoster i pc).posters i = pc := if_pos rfl

theorem setPoster_ne (s : State) (pc : Poster) (other : j ≠ i) :
    (s.setPoster i pc).posters j = s.posters j := if_neg other

theorem setPoster_holder (s : State) (i : ThreadId) (pc : Poster) (h : Option ThreadId) :
    (s.setPoster i pc).holder h = if h = some i then pc.holds else s.holder h := by
  cases h with
  | none => rfl
  | some j =>
      by_cases same : j = i
      · subst same
        simp [State.holder]
      · simp [State.holder, setPoster_ne s pc same, same]

/-- Nobody is inside when the lock is free. -/
theorem Sound.free (sound : Sound s) (unlocked : s.lock.locked = false) (h : Option ThreadId) :
    s.holder h = none := by
  cases held : s.holder h with
  | none => rfl
  | some flags =>
      have locked := (sound.exclusive h flags held).1
      rw [unlocked] at locked
      contradiction

theorem clean_set (clean : ∀ i, (s.posters i).Clean) (mine : pc.Clean) (j : ThreadId) :
    ((s.setPoster i pc).posters j).Clean := by
  by_cases same : j = i
  · subst same
    rwa [setPoster_self]
  · rw [setPoster_ne s pc same]
    exact clean j

/-- The other threads are as far as before. -/
theorem State.Wakes.set (wakes : s.Wakes) (still : (s.posters i).Waking → pc.Waking) :
    (s.setPoster i pc).Wakes := by
  rcases wakes with written | ⟨j, waking⟩
  · exact .inl written
  · right
    by_cases same : j = i
    · subst same
      exact ⟨j, (setPoster_self s j pc).symm ▸ still waking⟩
    · exact ⟨j, (setPoster_ne s pc same).symm ▸ waking⟩

/-- A thread goes on outside the critical section. -/
theorem Sound.outside (sound : Sound s) (was : (s.posters i).holds = none) (is : pc.holds = none)
    (clean : pc.Clean) (alert : s.driver = .wait true → s.Drained ∨ (s.setPoster i pc).Wakes) :
    Sound (s.setPoster i pc) where
  exclusive h flags held := by
    have same : ∀ h, (s.setPoster i pc).holder h = s.holder h := by
      intro h
      rw [setPoster_holder]
      split
      · rename_i mine
        rw [mine, is]
        exact was.symm
      · rfl
    rw [same] at held
    simp only [same]
    exact sound.exclusive h flags held
  posters := clean_set sound.posters clean
  place := sound.place
  flagged := sound.flagged
  swapped := sound.swapped
  conserved := sound.conserved
  announced := sound.announced
  alert := alert
  recorded := sound.recorded
  imported := sound.imported

/-! Threads. -/

theorem Sound.acquire (sound : Sound s) (at_ : s.posters i = .cas p flags) (free : s.lock = flags) :
    Sound ({ s with lock := { flags with locked := true } }.setPoster i (.push p flags)) := by
  have clean := sound.posters i
  rw [at_] at clean
  have nobody := sound.free (free ▸ clean)
  have holder : ∀ h, ({ s with lock := { flags with locked := true } }.setPoster i
      (.push p flags)).holder h = if h = some i then some flags else none := by
    intro h
    rw [setPoster_holder]
    split
    · rfl
    · exact nobody h
  refine ⟨fun h flags' held => ⟨rfl, fun h' _ held' => ?_⟩, clean_set sound.posters trivial, sound.place,
    fun none => ?_, sound.swapped, sound.conserved, sound.announced, fun waits => ?_, sound.recorded,
    sound.imported⟩
  · rw [holder] at held held'
    by_cases same : h = some i
    · by_cases same' : h' = some i
      · rw [same, same']
      · simp [same'] at held'
    · simp [same] at held
  · exact absurd (congrArg Word.locked none) (by simp [State.setPoster])
  · refine (sound.alert waits).imp id fun wakes => ?_
    apply State.Wakes.set (s := { s with lock := { flags with locked := true } }) wakes
    rw [show State.posters { s with lock := { flags with locked := true } } i = .cas p flags from at_]
    exact False.elim

theorem Sound.pushed (sound : Sound s) (at_ : s.posters i = .push p flags) :
    Sound ((s.push p).setPoster i (.unlock flags)) := by
  have mine : s.holder (some i) = some flags := by
    rw [State.holder, at_]
    rfl
  obtain ⟨locked, alone⟩ := sound.exclusive _ _ mine
  have rest : (s.push p).lock = s.lock ∧ (s.push p).posters = s.posters ∧
      (s.push p).driver = s.driver ∧ (s.push p).wakefd = s.wakefd ∧ (s.push p).entered = s.entered ∧
      (s.push p).seen = s.seen ∧ s.posted <+: (s.push p).posted ∧
      ((s.push p).posted = s.entered ++ s.driver.taken ++ (s.push p).migrate) := by
    cases p with
    | asap e =>
        exact ⟨rfl, rfl, rfl, rfl, rfl, rfl, List.prefix_append _ _,
          by simp [State.push, sound.conserved]⟩
    | fdClose fd =>
        exact ⟨rfl, rfl, rfl, rfl, rfl, rfl, List.prefix_refl _, sound.conserved⟩
  obtain ⟨lock, posters, driver, wakefd, entered, seen, more, posted⟩ := rest
  have holder : ∀ h, ((s.push p).setPoster i (.unlock flags)).holder h = s.holder h := by
    intro h
    rw [setPoster_holder]
    split
    · rename_i same
      exact same ▸ mine.symm
    · cases h <;> simp [State.holder, posters, driver]
  have lock' : ((s.push p).setPoster i (.unlock flags)).lock = s.lock := lock
  have driver' : ((s.push p).setPoster i (.unlock flags)).driver = s.driver := driver
  refine ⟨fun h flags' held => ?_, clean_set (posters ▸ sound.posters) trivial, ?_, fun free => ?_,
    fun flags' taken swapped => ?_, ?_, fun positive => ?_, fun _ => ?_, ?_, ?_⟩
  · rw [holder] at held
    simp only [holder, lock']
    exact sound.exclusive h flags' held
  · rw [driver']
    exact sound.place
  · rw [lock'] at free
    rw [free] at locked
    contradiction
  · rw [driver'] at swapped
    have driver : s.holder none = some flags' := by
      rw [State.holder, swapped]
      rfl
    exact nomatch alone none flags' driver
  · rw [driver']
    show (s.push p).posted = (s.push p).entered ++ _ ++ (s.push p).migrate
    rw [entered]
    exact posted
  · rw [driver', show ((s.push p).setPoster i (.unlock flags)).wakefd = s.wakefd from wakefd]
    exact sound.announced positive
  · exact .inr (.inr ⟨i, (setPoster_self _ i _).symm ▸ trivial⟩)
  · show (s.push p).seen <+: (s.push p).posted
    rw [seen]
    exact sound.recorded.trans more
  · show (s.push p).driver.Imported → (s.push p).seen <+: (s.push p).entered ++ (s.push p).driver.taken
    rw [driver, seen, entered]
    exact sound.imported

theorem Sound.released (sound : Sound s) (at_ : s.posters i = .unlock flags) :
    Sound ({ s with lock := { flags with nonempty := true } }.setPoster i .loadWake) := by
  have mine : s.holder (some i) = some flags := by
    rw [State.holder, at_]
    rfl
  have alone := (sound.exclusive _ _ mine).2
  refine ⟨fun h flags' held => ?_, clean_set sound.posters trivial, sound.place, fun none => ?_,
    sound.swapped, sound.conserved, sound.announced, fun waits => ?_, sound.recorded, sound.imported⟩
  · rw [setPoster_holder] at held
    split at held
    · contradiction
    · rename_i other
      exact absurd (alone h flags' held) other
  · exact absurd (congrArg Word.nonempty none) (by simp [State.setPoster])
  · refine (sound.alert waits).imp id fun wakes => ?_
    exact State.Wakes.set (s := { s with lock := { flags with nonempty := true } }) wakes
      fun _ => trivial

theorem Sound.written (sound : Sound s) (at_ : s.posters i = .write fd) :
    Sound ({ s with wakes := s.wakes + 1 }.setPoster i .idle) := by
  have more : Sound { s with wakes := s.wakes + 1 } :=
    { sound with alert := fun waits => (sound.alert waits).imp id fun _ => .inl (Nat.succ_pos _) }
  apply more.outside
  · rw [show State.posters { s with wakes := s.wakes + 1 } i = .write fd from at_]
    rfl
  · rfl
  · trivial
  · exact fun _ => .inr (.inl (Nat.succ_pos _))

/-- A thread that is not past its push changes nothing that the driver relies on. -/
theorem Sound.before (sound : Sound s) (was : (s.posters i).holds = none) (is : pc.holds = none)
    (clean : pc.Clean) (still : (s.posters i).Waking → pc.Waking) : Sound (s.setPoster i pc) :=
  sound.outside was is clean fun waits => (sound.alert waits).imp id fun wakes => wakes.set still

theorem poster_sound (sound : Sound s) (moved : s.poster i spurious = some t) : Sound t := by
  unfold State.poster at moved
  split at moved
  · contradiction
  · rename_i p at_
    cases Option.some.inj moved
    cases locked : s.lock.locked with
    | true =>
        apply sound.before <;> simp [at_, Poster.holds, Poster.Clean, Poster.Waking]
    | false =>
        apply sound.before <;> simp [at_, Poster.holds, Poster.Clean, Poster.Waking, locked]
  · rename_i p flags at_
    split at moved
    · rename_i free
      cases Option.some.inj moved
      exact sound.acquire at_ free.1
    · cases Option.some.inj moved
      apply sound.before <;> simp [at_, Poster.holds, Poster.Clean, Poster.Waking]
  · rename_i p flags at_
    cases Option.some.inj moved
    exact sound.pushed at_
  · rename_i flags at_
    cases Option.some.inj moved
    exact sound.released at_
  · rename_i at_
    split at moved
    · rename_i asleep
      cases Option.some.inj moved
      apply sound.outside
      · rw [at_]
        rfl
      · rfl
      · trivial
      · intro waits
        have announced := sound.announced true (.inr waits)
        rw [asleep] at announced
        contradiction
    · cases Option.some.inj moved
      apply sound.before <;> simp [at_, Poster.holds, Poster.Clean, Poster.Waking]
  · rename_i fd at_
    cases Option.some.inj moved
    exact sound.written at_

/-! The driver. -/

/-- The driver goes from place to place outside the critical section. -/
theorem Sound.apart (sound : Sound s) (lock : t.lock = s.lock) (posters : t.posters = s.posters)
    (was : s.driver.holds = none) (is : t.driver.holds = none) : t.Exclusive := by
  have same : ∀ h, t.holder h = s.holder h := by
    intro h
    cases h with
    | none => exact is.trans was.symm
    | some j => simp only [State.holder, posters]
  intro h flags held
  rw [same] at held
  simp only [same, lock]
  exact sound.exclusive h flags held

/-- The driver goes on outside the critical section, and not to sleep. -/
theorem Sound.go {place : Place} (sound : Sound s) (was : s.driver.holds = none)
    (is : place.holds = none) (clean : place.Clean) (taken : place.taken = s.driver.taken)
    (announced : ∀ positive, place = .recheck positive ∨ place = .wait positive → s.wakefd.isSome = true)
    (alert : place = .wait true → s.Drained ∨ s.Wakes) (imported : place.Imported → s.driver.Imported) :
    Sound (s.at_ place) where
  exclusive := sound.apart (t := s.at_ place) rfl rfl was is
  posters := sound.posters
  place := clean
  flagged := sound.flagged
  swapped flags taken at_ := by
    change place = _ at at_
    rw [at_] at is
    contradiction
  conserved := by
    show s.posted = s.entered ++ place.taken ++ s.migrate
    rw [taken]
    exact sound.conserved
  announced := announced
  alert := alert
  recorded := sound.recorded
  imported now := by
    show s.seen <+: s.entered ++ place.taken
    rw [taken]
    exact sound.imported (imported now)

/-- The driver is inside the critical section, alone. -/
theorem Sound.alone (sound : Sound s) (inside : s.driver.holds = some flags) :
    s.lock.locked = true ∧ ∀ i, (s.posters i).holds = none := by
  obtain ⟨locked, alone⟩ := sound.exclusive none flags inside
  refine ⟨locked, fun i => ?_⟩
  cases held : (s.posters i).holds with
  | none => rfl
  | some flags' => exact nomatch alone (some i) flags' held

theorem Sound.enters (sound : Sound s) (at_ : s.driver = .cas flags) (free : s.lock = flags) :
    Sound { s with lock := { flags with locked := true }, driver := .swap flags } := by
  have clean := sound.place
  rw [at_] at clean
  have nobody := sound.free (free ▸ clean)
  have conserved := sound.conserved
  rw [at_] at conserved
  refine ⟨fun h flags' held => ⟨rfl, fun h' flags'' held' => ?_⟩, sound.posters, trivial,
    fun none => absurd (congrArg Word.locked none) (by simp), (fun _ _ at_ => nomatch at_), conserved,
    (fun _ at_ => at_.elim nofun nofun), (fun at_ => nomatch at_), sound.recorded, False.elim⟩
  have outside : ∀ j, (s.posters j).holds = none := fun j => nobody (some j)
  cases h with
  | none =>
      cases h' with
      | none => rfl
      | some j => exact nomatch (outside j).symm.trans held'
  | some j => exact nomatch (outside j).symm.trans held

theorem Sound.swaps (sound : Sound s) (at_ : s.driver = .swap flags) :
    Sound { s with migrate := [], migrateFdClose := [], driver := .unlock flags s.migrate } := by
  obtain ⟨locked, outside⟩ := sound.alone (by rw [at_]; rfl)
  have conserved := sound.conserved
  rw [at_] at conserved
  refine ⟨fun h flags' held => ⟨locked, fun h' flags'' held' => ?_⟩, sound.posters, trivial,
    fun _ => ⟨rfl, rfl⟩, fun _ _ _ => ⟨rfl, rfl⟩, ?_, (fun _ at_ => at_.elim nofun nofun),
    (fun at_ => nomatch at_), sound.recorded, fun _ => ?_⟩
  · cases h with
    | none =>
        cases h' with
        | none => rfl
        | some j => exact nomatch (outside j).symm.trans held'
    | some j => exact nomatch (outside j).symm.trans held
  · simpa [Place.taken] using conserved
  · have whole : s.posted = s.entered ++ s.migrate := by simpa [Place.taken] using conserved
    exact whole ▸ sound.recorded

theorem Sound.leaves (sound : Sound s) (at_ : s.driver = .unlock flags taken) :
    Sound { s with lock := { flags with nonempty := false }, driver := .append taken } := by
  obtain ⟨_, outside⟩ := sound.alone (by rw [at_]; rfl)
  have conserved := sound.conserved
  have imported := sound.imported (by rw [at_]; trivial)
  rw [at_] at conserved imported
  refine ⟨fun h flags' held => ?_, sound.posters, trivial, fun _ => sound.swapped flags taken at_,
    (fun _ _ at_ => nomatch at_), conserved, (fun _ at_ => at_.elim nofun nofun),
    (fun at_ => nomatch at_), sound.recorded, fun _ => imported⟩
  cases h with
  | none => exact nomatch held
  | some j => exact nomatch (outside j).symm.trans held

theorem Sound.appends (sound : Sound s) (at_ : s.driver = .append taken) :
    Sound { s with asap := s.asap ++ taken, entered := s.entered ++ taken, driver := .events } := by
  have conserved := sound.conserved
  have imported := sound.imported (by rw [at_]; trivial)
  rw [at_] at conserved imported
  refine ⟨sound.apart rfl rfl (by rw [at_]; rfl) rfl, sound.posters, trivial, sound.flagged,
    (fun _ _ at_ => nomatch at_), ?_, (fun _ at_ => at_.elim nofun nofun), (fun at_ => nomatch at_),
    sound.recorded, fun _ => ?_⟩
  · simpa [Place.taken] using conserved
  · simpa [Place.taken] using imported

/-- From here on a thread that posts will see that it has to write. -/
theorem Sound.announces (sound : Sound s) (at_ : s.driver = .storeWake positive) (fd : Nat) :
    Sound { s with wakefd := some fd, driver := .recheck positive } := by
  have conserved := sound.conserved
  have imported := sound.imported (by rw [at_]; trivial)
  rw [at_] at conserved imported
  exact ⟨sound.apart rfl rfl (by rw [at_]; rfl) rfl, sound.posters, trivial, sound.flagged,
    (fun _ _ at_ => nomatch at_), conserved, fun _ _ => rfl, (fun at_ => nomatch at_),
    sound.recorded, fun _ => imported⟩

theorem Sound.resets (sound : Sound s) (at_ : s.driver = .resetWake woken) :
    Sound { s with wakefd := none, driver := .process woken } := by
  have conserved := sound.conserved
  have imported := sound.imported (by rw [at_]; trivial)
  rw [at_] at conserved imported
  exact ⟨sound.apart rfl rfl (by rw [at_]; rfl) rfl, sound.posters, trivial, sound.flagged,
    (fun _ _ at_ => nomatch at_), conserved, (fun _ at_ => at_.elim nofun nofun),
    (fun at_ => nomatch at_), sound.recorded, fun _ => imported⟩

theorem Sound.reads (sound : Sound s) (at_ : s.driver = .process true) :
    Sound { s with wakes := 0, driver := .process false } := by
  have conserved := sound.conserved
  have imported := sound.imported (by rw [at_]; trivial)
  rw [at_] at conserved imported
  exact ⟨sound.apart rfl rfl (by rw [at_]; rfl) rfl, sound.posters, trivial, sound.flagged,
    (fun _ _ at_ => nomatch at_), conserved, (fun _ at_ => at_.elim nofun nofun),
    (fun at_ => nomatch at_), sound.recorded, fun _ => imported⟩

/-- Where the driver neither sleeps nor is about to. -/
theorem Sound.walk {place : Place} (sound : Sound s) (was : s.driver.holds = none)
    (is : place.holds = none) (clean : place.Clean) (taken : place.taken = s.driver.taken)
    (awake : ∀ positive, place ≠ .recheck positive ∧ place ≠ .wait positive)
    (imported : place.Imported → s.driver.Imported) : Sound (s.at_ place) := by
  refine sound.go was is clean taken ?_ ?_ imported
  · intro positive at_
    exact (at_.elim (awake positive).1 (awake positive).2).elim
  · exact fun at_ => absurd at_ (awake true).2

/-- The import begins: what is posted by now will be in it. -/
theorem Sound.begins (sound : Sound s) (at_ : s.driver = .imports) :
    Sound { s with seen := s.posted, driver := if s.lock = {} then .events else .load } := by
  have conserved := sound.conserved
  rw [at_] at conserved
  split
  · rename_i free
    refine ⟨sound.apart rfl rfl (by rw [at_]; rfl) rfl, sound.posters, trivial, sound.flagged,
      (fun _ _ at_ => nomatch at_), conserved, (fun _ at_ => at_.elim nofun nofun),
      (fun at_ => nomatch at_), List.prefix_refl _, fun _ => ?_⟩
    rw [(sound.flagged free).1, List.append_nil] at conserved
    exact conserved ▸ List.prefix_refl _
  · exact ⟨sound.apart rfl rfl (by rw [at_]; rfl) rfl, sound.posters, trivial, sound.flagged,
      (fun _ _ at_ => nomatch at_), conserved, (fun _ at_ => at_.elim nofun nofun),
      (fun at_ => nomatch at_), List.prefix_refl _, False.elim⟩

theorem advance_sound (sound : Sound s) (moved : s.advance w spurious = some t) : Sound t := by
  unfold State.advance at moved
  split at moved
  all_goals rename_i at_
  · cases Option.some.inj moved
    exact sound.begins at_
  · cases Option.some.inj moved
    split
    · apply sound.walk <;> simp [at_, Place.holds, Place.taken, Place.Clean, Place.Imported]
    · rename_i free
      apply sound.walk <;> simp [at_, Place.holds, Place.taken, Place.Clean, Place.Imported, free]
  · split at moved
    · rename_i free
      cases Option.some.inj moved
      exact sound.enters at_ free.1
    · cases Option.some.inj moved
      apply sound.walk <;> simp [at_, Place.holds, Place.taken, Place.Clean, Place.Imported]
  · cases Option.some.inj moved
    exact sound.swaps at_
  · cases Option.some.inj moved
    exact sound.leaves at_
  · cases Option.some.inj moved
    exact sound.appends at_
  · cases Option.some.inj moved
    exact sound.announces at_ w
  · cases Option.some.inj moved
    rename_i positive
    have announced := sound.announced positive (.inl at_)
    apply sound.go <;> simp [at_, Place.holds, Place.taken, Place.Clean, Place.Imported]
    · exact announced
    · exact fun _ free => .inl (sound.flagged free)
  · cases Option.some.inj moved
    exact sound.resets at_
  · cases Option.some.inj moved
    exact sound.reads at_
  · cases Option.some.inj moved
    apply sound.walk <;> simp [at_, Place.holds, Place.taken, Place.Clean, Place.Imported]
  · contradiction

/-- Where the driver is outside the import, and it goes on to another such place. -/
theorem Sound.on {place : Place} (sound : Sound s) (was : s.driver.holds = none)
    (had : s.driver.taken = []) (done : s.driver.Imported) (is : place.holds = none)
    (clean : place.Clean) (taken : place.taken = [])
    (awake : ∀ positive, place ≠ .recheck positive ∧ place ≠ .wait positive) : Sound (s.at_ place) :=
  sound.walk was is clean (taken.trans had.symm) awake fun _ => done

theorem step_sound (sound : Sound s) (moved : s.step w l = some t) : Sound t := by
  cases l with
  | post i p =>
      simp only [State.step] at moved
      split at moved
      · rename_i idle
        cases Option.some.inj moved
        apply sound.before <;> simp [idle, Poster.holds, Poster.Clean, Poster.Waking]
      · contradiction
  | poster i spurious => exact poster_sound sound moved
  | advance spurious => exact advance_sound sound moved
  | asap e =>
      simp only [State.step] at moved
      split at moved
      · cases Option.some.inj moved
        exact { sound with }
      · contradiction
  | take =>
      simp only [State.step] at moved
      split at moved
      · cases Option.some.inj moved
        exact { sound with }
      · contradiction
  | wake woken =>
      simp only [State.step] at moved
      split at moved
      · rename_i positive at_
        split at moved
        · cases Option.some.inj moved
          apply sound.on <;> simp [at_, Place.holds, Place.taken, Place.Clean, Place.Imported]
        · contradiction
      · contradiction
  | endTimers poll =>
      simp only [State.step] at moved
      split at moved
      · rename_i at_
        cases Option.some.inj moved
        cases poll <;> apply sound.on <;>
          simp [at_, Place.holds, Place.taken, Place.Clean, Place.Imported]
      · contradiction
  | _ =>
      simp only [State.step] at moved
      split at moved
      · rename_i at_
        cases Option.some.inj moved
        apply sound.on <;> simp [at_, Place.holds, Place.taken, Place.Clean, Place.Imported]
      · contradiction

/-! Runs. -/

theorem start_sound : Sound {} where
  exclusive h flags held := by cases h <;> exact nomatch held
  posters _ := trivial
  place := trivial
  flagged _ := ⟨rfl, rfl⟩
  swapped _ _ at_ := nomatch at_
  conserved := rfl
  announced _ at_ := at_.elim nofun nofun
  alert at_ := nomatch at_
  recorded := List.prefix_refl _
  imported _ := List.prefix_refl _

theorem run_sound (path : Reaches (State.step w) {} ls s) : Sound s :=
  path.invariant (fun sound moved => step_sound sound moved) start_sound

/-- The thread's own next accesses write to the wake descriptor. -/
def State.WillWrite (s : State) (w : Nat) (i : ThreadId) : Prop :=
  ∃ n t, Reaches (State.step w) s (List.replicate n (.poster i false)) t ∧ t.wakes = s.wakes + 1

theorem write_writes (at_ : s.posters i = .write fd) : s.WillWrite w i := by
  refine ⟨1, { s with wakes := s.wakes + 1 }.setPoster i .idle, .next ?_ (.refl _), rfl⟩
  simp [State.step, State.poster, at_]

theorem loadWake_writes (at_ : s.posters i = .loadWake) (announced : s.wakefd = some fd) :
    s.WillWrite w i := by
  obtain ⟨n, t, path, wrote⟩ := write_writes (w := w) (setPoster_self s i (.write fd))
  refine ⟨n + 1, t, .next ?_ path, wrote⟩
  simp [State.step, State.poster, at_, announced]

/-- Once the wake descriptor is announced, a thread that has pushed something
writes to it. -/
theorem waking_writes (waking : (s.posters i).Waking) (announced : s.wakefd.isSome = true) :
    s.WillWrite w i := by
  obtain ⟨fd, announced⟩ := Option.isSome_iff_exists.mp announced
  cases at_ : s.posters i with
  | unlock flags =>
      have next := loadWake_writes (w := w)
        (s := { s with lock := { flags with nonempty := true } }.setPoster i .loadWake)
        (setPoster_self _ i _) announced
      obtain ⟨n, t, path, wrote⟩ := next
      refine ⟨n + 1, t, .next ?_ path, wrote⟩
      simp [State.step, State.poster, at_]
  | loadWake => exact loadWake_writes at_ announced
  | write fd => exact write_writes at_
  | _ =>
      rw [at_] at waking
      exact waking.elim

/-- While the driver sleeps on something posted, the write that will wake it has
been made or is the next thing some thread does. Events go from `migrate_` to
`asap_` once each and in order: all of them when the lock word is zero, and at
the end of an import those that were posted when it began. -/
theorem wakeup_not_lost (path : Reaches (State.step w) {} ls s) :
    (s.driver = .wait true → s.migrate ≠ [] ∨ s.migrateFdClose ≠ [] →
      0 < s.wakes ∨ ∃ i, s.WillWrite w i) ∧
    s.posted = s.entered ++ s.driver.taken ++ s.migrate ∧
    (s.lock = {} → s.posted = s.entered ++ s.driver.taken) ∧
    (s.driver.Imported → s.seen <+: s.entered ++ s.driver.taken) := by
  have sound := run_sound path
  refine ⟨fun waits pending => ?_, sound.conserved, fun free => ?_, sound.imported⟩
  · rcases sound.alert waits with drained | written | ⟨i, waking⟩
    · rcases pending with migrate | closes
      · exact absurd drained.1 migrate
      · exact absurd drained.2 closes
    · exact .inl written
    · exact .inr ⟨i, waking_writes waking (sound.announced true (.inr waits))⟩
  · have conserved := sound.conserved
    rwa [(sound.flagged free).1, List.append_nil] at conserved

/-- The driver reads the lock word before a thread takes it, and goes to sleep
while the thread is inside: what the thread does next is the write. -/
theorem wakeup_not_lost_asleep :
    ∃ s, Reaches (State.step 9) {}
      [.enter, .advance false, .endEvents, .stay, .post 0 (.asap 5), .poster 0 false, .watch true,
        .advance false, .advance false, .poster 0 false, .poster 0 false] s ∧
      s.driver = .wait true ∧ s.migrate = [5] ∧ (0 < s.wakes ∨ ∃ i, s.WillWrite 9 i) :=
  ⟨_, run_iff_reaches.mp rfl, rfl, rfl,
    (wakeup_not_lost (run_iff_reaches.mp (rfl : run (State.step 9) {}
      [.enter, .advance false, .endEvents, .stay, .post 0 (.asap 5), .poster 0 false, .watch true,
        .advance false, .advance false, .poster 0 false, .poster 0 false] = some _))).1 rfl
      (.inl (by decide))⟩

end Cotamer.Handshake
