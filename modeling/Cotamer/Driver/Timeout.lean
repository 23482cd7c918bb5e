import Cotamer.Driver.Deadline

/-! How long the driver waits in the kernel: the time until the earliest timer, as the
milliseconds that `epoll_wait` and `poll` take. -/
namespace Cotamer.Timers
open Transition TimerHeap

/-- What an `int` keeps of a number. -/
def int (x : Int) : Int := x.bmod (2 ^ 32)

theorem int_eq (x : Int) : int x =
    if x % 2 ^ 32 < 2 ^ 31 then x % 2 ^ 32 else x % 2 ^ 32 - 2 ^ 32 := rfl

/-- `duration_milliseconds` -/
def durationMilliseconds (d : Int) : Int := if d ≤ 0 then 0 else int (d.tdiv 1000000)

/-- `duration(1h)` -/
def hour : Int := 3600000000000

/-- The backends whose wait takes milliseconds. -/
inductive Backend where
  | epoll
  | poll
  deriving DecidableEq, Repr

/-- What else the loop looks at when it computes the timeout. `relocked` is `lock_` as
`watch_fds` sees it again. -/
structure Turn where
  asap : Bool                   -- !asap_.empty()
  realTime : Bool
  locked : Bool                 -- lock_
  poll : Bool                   -- lt == looptype::poll
  clearing : Bool
  nfdctl : Nat
  relocked : Bool
  deriving DecidableEq, Repr

/-- "compute timeout" -/
def timeout (turn : Turn) (topTime : Option Int) (now : Int) : Int :=
  if turn.asap || !turn.realTime || turn.locked || turn.poll || turn.clearing then 0
  else match topTime with
    | some time => rep (time - now)
    | none => hour

/-- What `watch_fds` hands to the kernel, when the loop calls it. -/
def handed (backend : Backend) (turn : Turn) (topTime : Option Int) (now : Int) : Option Int :=
  let wait := timeout turn topTime now
  if turn.nfdctl = 0 ∧ wait ≤ 0 then none
  else some (durationMilliseconds (if backend = .epoll ∧ turn.relocked then 0 else wait))

/-- Entries whose event may still be triggered. -/
def pending (h : History α) : List (Entry α) := h.heap.values.filter fun e => !h.empty e

/-- The deadline of the timer that is due first. -/
def Earliest (h : History α) (deadline : Int) : Prop :=
  (∃ e ∈ pending h, e.time = deadline) ∧ ∀ e ∈ pending h, deadline ≤ e.time

/-- The wait has an end, and that is not after the deadline. -/
def InTime (wait deadline now : Int) : Prop := 0 ≤ wait ∧ wait ≤ max 0 (deadline - now) / 1000000

instance (h : History α) (deadline : Int) : Decidable (Earliest h deadline) :=
  inferInstanceAs (Decidable (_ ∧ _))

instance (wait deadline now : Int) : Decidable (InTime wait deadline now) :=
  inferInstanceAs (Decidable (_ ∧ _))

/-- The loop does not let the wait begin with nothing to wait for. -/
def Blocks (backend : Backend) (turn : Turn) : Prop :=
  (turn.asap || !turn.realTime || turn.locked || turn.poll || turn.clearing) = false ∧
    ¬(backend = .epoll ∧ turn.relocked = true)

/-- The time that is left is a number of milliseconds that an `int` holds, or wraps to one that
is not negative. (Differences below -2^63 wrap to positive ones.) -/
def Countable (left : Int) : Prop :=
  if left < -2 ^ 63 then (left + 2 ^ 64) / 1000000 % 2 ^ 32 = 0
  else 0 < left → left < 2 ^ 63 → left / 1000000 % 2 ^ 32 < 2 ^ 31

instance (backend : Backend) (turn : Turn) : Decidable (Blocks backend turn) :=
  inferInstanceAs (Decidable (_ ∧ _))

instance (left : Int) : Decidable (Countable left) := by
  unfold Countable
  infer_instance

variable {α : Type} {h : TimerHeap.History α} {ops : List (TimerHeap.Op α)}

theorem pop_size (h : TimerHeap α) (top : h.top? = some v) : h.es.size = h.pop.es.size + 1 := by
  have kept := (TimerHeap.pop_values h top).length_eq
  rw [List.length_cons, TimerHeap.values_length, TimerHeap.values_length] at kept
  exact kept

/-- `cull` leaves an entry at the top whose event can be triggered. -/
theorem cullTop_live (empty : α → Bool) (fuel : Nat) (h : TimerHeap α) (enough : h.es.size ≤ fuel)
    (top : (TimerHeap.cullTop empty fuel h).1.top? = some v) : empty v = false := by
  induction fuel generalizing h with
  | zero =>
      have none : h.es.size = 0 := Nat.le_zero.mp enough
      simp [TimerHeap.cullTop, TimerHeap.top?, none] at top
  | succ fuel ih =>
      unfold TimerHeap.cullTop at top
      split at top
      · rename_i none
        rw [none] at top
        contradiction
      · rename_i w found
        split at top
        · have less := pop_size h found
          exact ih h.pop (by omega) top
        · rename_i live
          rw [found] at top
          cases Option.some.inj top
          simpa using live

/-- After `cull` the heap has the earliest deadline at its top. -/
theorem topTime_earliest (path : Reaches TimerHeap.History.step {} ops g) (culled : g.step .cull = some h)
    (bounded : Meets TimerHeap.History.step TimerHeap.History.Bounded {} (ops ++ [.cull]))
    (earliest : Earliest h deadline) : h.heap.topTime? = some deadline := by
  have before : g.Kept :=
    path.guarded TimerHeap.History.step_kept bounded.front TimerHeap.History.initial_kept
  have kept : h.Kept := TimerHeap.History.step_kept before (bounded.suffix path).1 culled
  obtain ⟨⟨e, member, rfl⟩, least⟩ := earliest
  have held : e ∈ h.heap.values := (List.mem_filter.mp member).1
  obtain ⟨x, i, at_i, _, _⟩ := TimerHeap.History.value_at held
  have bound := (Array.getElem?_eq_some_iff.mp at_i).1
  obtain ⟨y, top⟩ : ∃ y, h.heap.es[0]? = some y :=
    ⟨_, Array.getElem?_eq_getElem (Nat.lt_of_le_of_lt (Nat.zero_le i) bound)⟩
  have inside := Array.mem_of_getElem? top
  have tagged := (kept.tagged y inside).1
  have topTime : h.heap.topTime? = some y.when := by rw [TimerHeap.topTime?, top, Option.map_some]
  have live : h.empty y.value = false := by
    have expired : h.expired = g.expired := by
      cases Option.some.inj culled
      rfl
    cases Option.some.inj culled
    apply cullTop_live g.empty g.heap.es.size g.heap (Nat.le_refl _)
    rw [TimerHeap.top?]
    exact congrArg (Option.map _) top
  have below := ((TimerHeap.History.topTime_least kept y.when).mp topTime).2 e held
  have above : e.time ≤ y.value.time :=
    least y.value (List.mem_filter.mpr ⟨TimerHeap.History.mem_values inside, by simpa using live⟩)
  rw [topTime, Int.le_antisymm below (tagged ▸ above)]

theorem int_inTime (positive : 0 < left) : 0 ≤ int (left / 1000000) ∧
    int (left / 1000000) ≤ left / 1000000 ↔ left / 1000000 % 2 ^ 32 < 2 ^ 31 := by
  have nonneg : 0 ≤ left / 1000000 := Int.ediv_nonneg (Int.le_of_lt positive) (by decide)
  rw [int_eq]
  split <;> omega

/-- Differences of two times that wrap. -/
theorem rep_left (low : -2 ^ 64 < left) (high : left < 2 ^ 64) : rep left =
    if left < -2 ^ 63 then left + 2 ^ 64 else if left < 2 ^ 63 then left else left - 2 ^ 64 := by
  rw [rep_eq]
  split <;> split <;> (try split) <;> omega

theorem milliseconds_inTime {deadline now : Int} (low : -2 ^ 64 < deadline - now)
    (high : deadline - now < 2 ^ 64) :
    InTime (durationMilliseconds (rep (deadline - now))) deadline now ↔ Countable (deadline - now) := by
  unfold InTime
  generalize deadline - now = left at *
  have wrapped := rep_left low high
  unfold Countable durationMilliseconds
  by_cases under : left < -2 ^ 63
  · rw [if_pos under] at wrapped
    have positive : 0 < left + 2 ^ 64 := by omega
    have none : max 0 left / 1000000 = 0 := by
      rw [Int.max_eq_left (by omega)]
      rfl
    rw [if_pos under, wrapped, if_neg (by omega), none,
      Int.tdiv_eq_ediv_of_nonneg (Int.le_of_lt positive), int_eq]
    split <;> omega
  · rw [if_neg under] at wrapped ⊢
    by_cases positive : 0 < left
    · by_cases fits : left < 2 ^ 63
      · rw [if_pos fits] at wrapped
        rw [wrapped, if_neg (by omega), Int.max_eq_right (Int.le_of_lt positive),
          Int.tdiv_eq_ediv_of_nonneg (Int.le_of_lt positive), int_inTime positive]
        exact ⟨fun small _ _ => small, fun small => small positive fits⟩
      · rw [if_neg fits] at wrapped
        rw [wrapped, if_pos (by omega)]
        exact iff_of_true ⟨Int.le_refl _, Int.ediv_nonneg (Int.le_max_left ..) (by decide)⟩
          fun _ small => absurd small fits
    · rw [if_pos (by omega)] at wrapped
      rw [wrapped, if_pos (by omega)]
      exact iff_of_true ⟨Int.le_refl _, Int.ediv_nonneg (Int.le_max_left ..) (by decide)⟩
        fun some => absurd some positive

/-- The driver's wait ends, and not after the earliest deadline, exactly if the milliseconds that
are left until then can be counted. -/
theorem wait_in_time (path : Reaches TimerHeap.History.step {} ops g)
    (culled : g.step .cull = some h)
    (bounded : Meets TimerHeap.History.step TimerHeap.History.Bounded {} (ops ++ [.cull]))
    (earliest : Earliest h deadline) (fits : Representable deadline) (present : Representable now)
    (backend : Backend) (turn : Turn) :
    (∀ wait ∈ handed backend turn h.heap.topTime? now, InTime wait deadline now) ↔
      (Blocks backend turn → Countable (deadline - now)) := by
  rw [topTime_earliest path culled bounded earliest]
  have counted : InTime (durationMilliseconds (rep (deadline - now))) deadline now ↔
      Countable (deadline - now) := by
    apply milliseconds_inTime
    · have := fits.1
      have := present.2
      omega
    · have := fits.2
      have := present.1
      omega
  have at_once : InTime (durationMilliseconds 0) deadline now :=
    ⟨Int.le_refl _, Int.ediv_nonneg (Int.le_max_left ..) (by decide)⟩
  by_cases waits : (turn.asap || !turn.realTime || turn.locked || turn.poll || turn.clearing) = false
  · have wait : timeout turn (some deadline) now = rep (deadline - now) := by
      rw [timeout, waits]
      rfl
    simp only [handed, wait]
    by_cases again : backend = .epoll ∧ turn.relocked = true
    · rw [if_pos again]
      refine iff_of_true (fun w given => ?_) fun blocks => absurd again blocks.2
      split at given
      · contradiction
      · cases Option.some.inj given
        exact at_once
    · rw [if_neg again]
      split
      · rename_i past
        refine iff_of_true nofun fun _ => ?_
        rw [← counted, durationMilliseconds, if_pos past.2]
        exact at_once
      · refine ⟨fun all _ => counted.mp (all _ rfl), fun all w given => ?_⟩
        cases Option.some.inj given
        exact counted.mpr (all ⟨waits, again⟩)
  · have wait : timeout turn (some deadline) now = 0 := by
      rw [timeout, if_pos (Bool.eq_true_of_not_eq_false waits)]
    refine iff_of_true (fun w given => ?_) fun blocks => absurd blocks.1 waits
    simp only [handed, wait, ite_self] at given
    split at given
    · contradiction
    · cases Option.some.inj given
      exact at_once

/-- The heap that some operations make. -/
def heapOf (ops : List (TimerHeap.Op Unit)) : TimerHeap.History Unit :=
  (run TimerHeap.History.step {} ops).getD {}

/-- Two timers, the earlier one of a triggered event. -/
def minuteOps : List (TimerHeap.Op Unit) := [.emplace 60000000007 (), .emplace 5 (), .expire 2]

theorem wait_in_time_minute : ∃ h, Reaches TimerHeap.History.step {} minuteOps (heapOf minuteOps) ∧
    (heapOf minuteOps).step .cull = some h ∧
    ∀ wait ∈ handed .epoll ⟨false, true, false, false, false, 1, false⟩ h.heap.topTime? 7,
      InTime wait 60000000007 7 := by
  have path : Reaches TimerHeap.History.step {} minuteOps (heapOf minuteOps) :=
    run_iff_reaches.mp rfl
  refine ⟨_, path, rfl, (wait_in_time path rfl ?_ ?_ ?_ ?_ _ _).mpr ?_⟩
  all_goals decide +kernel

/-- A timer in 25 days. -/
def monthOps : List (TimerHeap.Op Unit) := [.emplace 2160000000000000 ()]

theorem month_waits_forever : ∃ h, Reaches TimerHeap.History.step {} monthOps (heapOf monthOps) ∧
    (heapOf monthOps).step .cull = some h ∧ Earliest h 2160000000000000 ∧
    ¬∀ wait ∈ handed .epoll ⟨false, true, false, false, false, 1, false⟩ h.heap.topTime? 7,
      InTime wait 2160000000000000 7 := by
  refine ⟨_, run_iff_reaches.mp rfl, rfl, ?_, ?_⟩
  · decide +kernel
  · decide +kernel

end Cotamer.Timers
