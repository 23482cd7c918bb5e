import Cotamer.Counts
import Cotamer.TimerHeap.Queue

/-! The deadlines of timers. Times and durations are 64-bit counts of nanoseconds, and sums
of them wrap. The timers are driven by the real clock, whose readings never go back, or by
the virtual one. -/
namespace Cotamer
open Transition

/-- The time at which a timer is due by rights: `num / den` nanoseconds. -/
structure Deadline where
  num : Int
  den : Nat
  deriving DecidableEq, Repr

def Deadline.Passed (d : Deadline) (now : Int) : Prop := d.num ≤ now * d.den

instance (d : Deadline) (now : Int) : Decidable (d.Passed now) := inferInstanceAs (Decidable (_ ≤ _))

theorem Deadline.Passed.later {d : Deadline} (passed : d.Passed now) (later : now ≤ now') :
    d.Passed now' :=
  Int.le_trans passed (Int.mul_le_mul_of_nonneg_right later (Int.natCast_nonneg _))

/-- The driver as far as its timers go. `clock` is the last reading of the real clock, and
`told` the deadlines of the events that the driver has triggered, or has returned
triggered, with the time of that. -/
structure Timers where
  realTime : Bool
  clock : Int
  snow : Int := 0
  clearing : Bool := false
  timing : Bool := false              -- "process timers"
  timed : TimerHeap.History (Option Deadline) := {}
  told : List (Deadline × Int) := []
  deriving Repr

namespace Timers

inductive Label where
  | atSteady (given : Bool) (t : Int)
  | atSystem (given : Bool) (t sys now : Int)
  | after (given : Bool) (count : Int) (num den : Nat) (now : Int)
  | stepTime
  | expire (seq : Nat)                -- the event is triggered by others, or nobody has it
  | clear
  | clearTimer
  | endClearing
  | cull
  | clock (idle : Bool) (now : Int)   -- "update time"
  | timer
  | endTimers
  deriving DecidableEq, Repr

/-- `virtual_epoch_`, in nanoseconds -/
def virtualEpoch : Int := 1634070069000000000

def steadyNow (s : Timers) : Int := if s.realTime then s.clock else s.snow

/-- A look at the real clock. -/
def look (s : Timers) (now : Int) : Option Timers :=
  if !s.realTime then some s
  else if s.clock ≤ now ∧ Representable now then some { s with clock := now }
  else none

/-- `now`; `sys` is what the system clock says. -/
def systemNow (s : Timers) (sys : Int) : Int := if s.realTime then sys else rep (virtualEpoch + s.snow)

def tell (s : Timers) (due : Option Deadline) : Timers :=
  { s with told := (due.map fun d => (d, s.steadyNow)).toList ++ s.told }

/-- `at(steady_time_point, event)` -/
def emplace (s : Timers) (t : Int) (due : Option Deadline) : Option Timers :=
  (s.timed.step (.emplace t due)).map fun timed => { s with timed }

/-- `at(steady_time_point)`, and the same of a given event -/
def atSteady (s : Timers) (given : Bool) (t : Int) (due : Option Deadline) : Option Timers :=
  if !given && !s.realTime && t ≤ s.snow then some (s.tell due) else s.emplace t due

/-- `after(duration)` -/
def after (s : Timers) (given : Bool) (d : Int) (due : Option Deadline) : Option Timers :=
  s.atSteady given (rep (s.steadyNow + d)) due

/-- `duration_cast` to nanoseconds, where the unit is `num / den` of them. -/
def durationCast (count : Int) (num den : Nat) : Int := (rep (count * num)).tdiv den

/-- The time of the system clock that is meant, without wrapping. -/
def meantNow (s : Timers) (sys : Int) : Int := if s.realTime then sys else virtualEpoch + s.snow

/-- The next timer, triggered unless that has been done. -/
def fire (s : Timers) : Option Timers :=
  s.timed.heap.top?.bind fun e => (s.timed.step .pop).map fun timed =>
    if s.timed.empty e then { s with timed } else { s.tell e.value with timed }

def step (s : Timers) : Label → Option Timers
  | .atSteady given t => if Representable t then s.atSteady given t (some ⟨t, 1⟩) else none
  | .atSystem given t sys now =>
    if Representable t ∧ Representable sys then
      (s.look now).bind fun s =>
        s.after given (rep (t - s.systemNow sys)) (some ⟨s.steadyNow + (t - s.meantNow sys), 1⟩)
    else none
  | .after given count num den now =>
    if Representable count ∧ 0 < num ∧ 0 < den then
      (s.look now).bind fun s => s.after given (durationCast count num den)
        (if 0 ≤ count then some ⟨s.steadyNow * den + count * num, den⟩ else none)
    else none
  | .stepTime => some (if s.realTime then s else { s with snow := rep (s.snow + 1) })
  | .expire seq => (s.timed.step (.expire seq)).map fun timed => { s with timed }
  | .clear => some { s with clearing := true }
  | .clearTimer => if s.clearing ∧ !s.timing then s.fire else none
  | .endClearing => some { s with clearing := false }
  | .cull => (s.timed.step .cull).map fun timed => { s with timed }
  | .clock idle now =>
    (s.look now).map fun s => { s with
      timing := true
      snow :=
        if s.realTime then now
        else if idle then s.timed.heap.topTime?.getD s.snow
        else s.snow }
  | .timer => if s.timing ∧ ∃ t ∈ s.timed.heap.topTime?, t ≤ s.snow then s.fire else none
  | .endTimers => some { s with timing := false }

/-- No event was triggered, or returned triggered, before its deadline. -/
def NotEarly (s : Timers) : Prop := ∀ p ∈ s.told, p.1.Passed p.2

/-- The time at which a look at the clock finds the driver. -/
def steadyAt (s : Timers) (now : Int) : Int := if s.realTime then now else s.snow

/-- The deadline of an event can be represented, and its timer is not dropped by `clear`. -/
def Fits (s : Timers) : Label → Prop
  | .after _ count num den now =>
    0 ≤ count → count * num < 2 ^ 63 ∧ (den : Int) ∣ count * num ∧
      s.steadyAt now + count * num / den < 2 ^ 63
  | .atSystem _ t sys now => s.steadyAt now + (t - s.meantNow sys) < 2 ^ 63
  | .clearTimer => ∀ e ∈ s.timed.heap.top?, s.timed.empty e = false →
      ∀ d ∈ e.value, d.Passed s.steadyNow
  | _ => True

instance : DecidablePred NotEarly := fun s => inferInstanceAs (Decidable (∀ p ∈ s.told, _))

instance decidableFits (s : Timers) : ∀ l, Decidable (s.Fits l)
  | .after .. => inferInstanceAs (Decidable (_ → _ ∧ _ ∧ _))
  | .atSystem .. => inferInstanceAs (Decidable (_ < _))
  | .clearTimer => inferInstanceAs (Decidable (∀ e ∈ s.timed.heap.top?, _ → ∀ d ∈ e.value, _))
  | .atSteady .. | .stepTime | .expire _ | .clear | .endClearing | .cull | .clock .. | .timer
  | .endTimers => isTrue trivial

variable {s t : Timers} {l : Label} {ls : List Label} {due : Option Deadline}

/-- The stored times are not before the deadlines. -/
structure Sound (s : Timers) : Prop where
  heap : s.timed.Sound
  timely : ∀ e ∈ s.timed.inserted, ∀ d ∈ e.value, d.Passed e.time
  told : s.NotEarly
  behind : s.timing = true → s.realTime = true → s.snow ≤ s.clock

theorem Sound.tell (sound : Sound s) (timely : ∀ d ∈ due, d.Passed s.steadyNow) :
    Sound (s.tell due) := by
  refine ⟨sound.heap, sound.timely, ?_, sound.behind⟩
  intro p member
  rcases List.mem_append.mp member with new | old
  · obtain ⟨d, has, rfl⟩ := Option.map_eq_some_iff.mp (Option.mem_toList.mp new)
    exact timely d has
  · exact sound.told p old

theorem Sound.emplace (sound : Sound s) (timely : ∀ d ∈ due, d.Passed time)
    (moved : s.emplace time due = some t) : Sound t := by
  obtain ⟨timed, inserted, rfl⟩ := Option.map_eq_some_iff.mp moved
  have heap := TimerHeap.History.emplace_sound sound.heap inserted
  cases Option.some.inj inserted
  refine ⟨heap, ?_, sound.told, sound.behind⟩
  intro e member
  rcases List.mem_append.mp member with old | new
  · exact sound.timely e old
  · obtain rfl := List.mem_singleton.mp new
    exact timely

theorem Sound.atSteady (sound : Sound s) (timely : ∀ d ∈ due, d.Passed time)
    (moved : s.atSteady given time due = some t) : Sound t := by
  unfold Timers.atSteady at moved
  split at moved
  · rename_i at_once
    simp only [Bool.and_eq_true, Bool.not_eq_true', decide_eq_true_eq] at at_once
    cases Option.some.inj moved
    refine sound.tell fun d has => (timely d has).later ?_
    rw [steadyNow, if_neg (by simp [at_once.1.2])]
    exact at_once.2
  · exact sound.emplace timely moved

theorem Sound.look (sound : Sound s) (looked : s.look now = some t) :
    Sound t ∧ t.steadyNow = s.steadyAt now ∧ t.realTime = s.realTime ∧ t.snow = s.snow ∧
      (s.realTime = true → t.clock = now) := by
  unfold Timers.look at looked
  split at looked
  · rename_i virtual
    cases Option.some.inj looked
    have virtual : s.realTime = false := by simpa using virtual
    simp [sound, steadyNow, steadyAt, virtual]
  · rename_i real
    have real : s.realTime = true := by simpa using real
    obtain ⟨⟨later, _⟩, looked⟩ := Option.ite_none_right_eq_some.mp looked
    cases Option.some.inj looked
    refine ⟨⟨sound.heap, sound.timely, sound.told, fun timing _ => ?_⟩, ?_, rfl, rfl, fun _ => rfl⟩
    · exact Int.le_trans (sound.behind timing real) later
    · simp [steadyNow, steadyAt, real]

theorem Sound.fire (sound : Sound s) (moved : s.fire = some t)
    (timely : ∀ e ∈ s.timed.heap.top?, s.timed.empty e = false → ∀ d ∈ e.value, d.Passed s.steadyNow) :
    Sound t := by
  obtain ⟨e, top, moved⟩ := Option.bind_eq_some_iff.mp moved
  obtain ⟨timed, popped, rfl⟩ := Option.map_eq_some_iff.mp moved
  have heap := TimerHeap.History.pop_sound sound.heap popped
  have inserted : timed.inserted = s.timed.inserted := by
    simp only [TimerHeap.History.step, top] at popped
    cases Option.some.inj popped
    rfl
  have kept : ∀ {u : Timers}, Sound u → u.timed = s.timed → Sound { u with timed } := by
    intro u sound same
    refine ⟨heap, ?_, sound.told, sound.behind⟩
    intro e member
    rw [inserted, ← same] at member
    exact sound.timely e member
  split
  · exact kept sound rfl
  · rename_i lives
    exact kept (sound.tell (timely e top (by simpa using lives))) rfl

theorem passed_self (t : Int) : (⟨t, 1⟩ : Deadline).Passed t := by
  simp [Deadline.Passed]

/-- The entry at the top is the next one that is due. -/
theorem Sound.topTime (sound : Sound s) (top : s.timed.heap.top? = some e) :
    s.timed.heap.topTime? = some e.time := by
  obtain ⟨x, here, rfl⟩ := Option.map_eq_some_iff.mp top
  rw [TimerHeap.topTime?, here, Option.map_some,
    (sound.heap.tagged x (Array.mem_of_getElem? here)).1]

/-- The time that `after` stores for a whole number of nanoseconds. -/
theorem after_timely {steady count : Int} {num den : Nat} (positive : 0 ≤ count)
    (cast : count * num < 2 ^ 63) (whole : (den : Int) ∣ count * num)
    (fits : steady + count * num / den < 2 ^ 63) :
    (⟨steady * den + count * num, den⟩ : Deadline).Passed
      (rep (steady + durationCast count num den)) := by
  have nonneg : 0 ≤ count * num := Int.mul_nonneg positive (Int.natCast_nonneg num)
  have exact_ : durationCast count num den = count * num / den := by
    rw [durationCast, rep_fits (by omega) cast, Int.tdiv_eq_ediv_of_nonneg nonneg]
  have later : steady + count * num / den ≤ rep (steady + durationCast count num den) := by
    rw [exact_]
    exact le_rep fits
  have scaled := Int.mul_le_mul_of_nonneg_right later (Int.natCast_nonneg den)
  rwa [Int.add_mul, Int.ediv_mul_cancel whole] at scaled

theorem meant_rep (s : Timers) (x sys : Int) :
    rep (x - s.systemNow sys) = rep (x - s.meantNow sys) := by
  unfold systemNow meantNow
  split
  · rfl
  · exact Int.sub_bmod_bmod

theorem step_sound (sound : Sound s) (fits : s.Fits l) (moved : s.step l = some t) : Sound t := by
  cases l with
  | atSteady given time =>
      obtain ⟨_, moved⟩ := Option.ite_none_right_eq_some.mp moved
      exact sound.atSteady (by simpa using passed_self time) moved
  | atSystem given time sys now =>
      obtain ⟨_, moved⟩ := Option.ite_none_right_eq_some.mp moved
      obtain ⟨u, looked, moved⟩ := Option.bind_eq_some_iff.mp moved
      obtain ⟨soundU, steady, real, snow, _⟩ := sound.look looked
      have meant : u.meantNow sys = s.meantNow sys := by rw [meantNow, meantNow, real, snow]
      refine soundU.atSteady (fun d has => ?_) moved
      cases Option.some.inj has
      rw [meant_rep, rep_add_rep, meant, steady]
      exact (passed_self _).later (le_rep fits)
  | after given count num den now =>
      obtain ⟨_, moved⟩ := Option.ite_none_right_eq_some.mp moved
      obtain ⟨u, looked, moved⟩ := Option.bind_eq_some_iff.mp moved
      obtain ⟨soundU, steady, _⟩ := sound.look looked
      refine soundU.atSteady (fun d has => ?_) moved
      obtain ⟨positive, same⟩ := Option.ite_none_right_eq_some.mp has
      obtain ⟨cast, whole, fits⟩ := fits positive
      cases Option.some.inj same
      rw [steady]
      exact after_timely positive cast whole fits
  | stepTime =>
      cases Option.some.inj moved
      split
      · exact sound
      · rename_i virtual
        exact ⟨sound.heap, sound.timely, sound.told, fun _ real => absurd real virtual⟩
  | expire seq =>
      simp only [step] at moved
      obtain ⟨timed, changed, rfl⟩ := Option.map_eq_some_iff.mp moved
      have heap := TimerHeap.History.step_sound sound.heap changed
      cases Option.some.inj changed
      exact ⟨heap, sound.timely, sound.told, sound.behind⟩
  | clear =>
      cases Option.some.inj moved
      exact ⟨sound.heap, sound.timely, sound.told, sound.behind⟩
  | clearTimer =>
      obtain ⟨_, moved⟩ := Option.ite_none_right_eq_some.mp moved
      exact sound.fire moved fits
  | endClearing =>
      cases Option.some.inj moved
      exact ⟨sound.heap, sound.timely, sound.told, sound.behind⟩
  | cull =>
      simp only [step] at moved
      obtain ⟨timed, changed, rfl⟩ := Option.map_eq_some_iff.mp moved
      have heap := TimerHeap.History.step_sound sound.heap changed
      cases Option.some.inj changed
      exact ⟨heap, sound.timely, sound.told, sound.behind⟩
  | clock idle now =>
      obtain ⟨u, looked, rfl⟩ := Option.map_eq_some_iff.mp moved
      obtain ⟨soundU, _, real, _, clock⟩ := sound.look looked
      refine ⟨soundU.heap, soundU.timely, soundU.told, fun _ is => ?_⟩
      have is : u.realTime = true := is
      simp only [is, if_true]
      exact Int.le_of_eq (clock (real ▸ is)).symm
  | timer =>
      obtain ⟨⟨timing, time, top, passed⟩, moved⟩ := Option.ite_none_right_eq_some.mp moved
      refine sound.fire moved fun e first _ d has => ?_
      have same : e.time = time := Option.some.inj ((sound.topTime first).symm.trans top)
      have inserted : e ∈ s.timed.inserted := by
        obtain ⟨x, here, rfl⟩ := Option.map_eq_some_iff.mp first
        exact sound.heap.conserved.mem_iff.mpr (List.mem_append_left _
          (TimerHeap.History.mem_values (Array.mem_of_getElem? here)))
      have now : s.snow ≤ s.steadyNow := by
        unfold steadyNow
        split
        · rename_i real
          exact sound.behind timing real
        · exact Int.le_refl _
      exact (sound.timely e inserted d has).later (Int.le_trans (same ▸ passed) now)
  | endTimers =>
      cases Option.some.inj moved
      exact ⟨sound.heap, sound.timely, sound.told, nofun⟩

/-- Timers never fire early in the runs whose deadlines can be represented. -/
theorem timers_never_early (realTime : Bool) (clock : Int)
    (fits : Meets step Fits { realTime, clock } ls) :
    Always step NotEarly { realTime, clock } ls := by
  have initial : Sound { realTime, clock } := ⟨TimerHeap.History.initial_sound, nofun, nofun, nofun⟩
  have sound := always_of_meets (P := Sound) (fun sound fits moved => step_sound sound fits moved)
    fits initial
  exact sound.mono fun _ sound => sound.told

/-- A timer of an hour, and one that the system clock sets. -/
def hourLabels : List Label :=
  [.after false 1 3600000000000 1 10, .atSystem false 1700000000000000050 1700000000000000000 20,
    .clock false 70, .cull, .timer, .endTimers, .clock false 3600000000010, .timer, .endTimers]

theorem timers_never_early_hour :
    (run step { realTime := true, clock := 5 } hourLabels).map told =
      some [(⟨3600000000010, 1⟩, 3600000000010), (⟨70, 1⟩, 70)] ∧
    Always step NotEarly { realTime := true, clock := 5 } hourLabels :=
  ⟨by decide +kernel, timers_never_early true 5 (by decide +kernel)⟩

/-- A timer that is meant never to fire. -/
def foreverLabels : List Label := [.after false (2 ^ 63 - 1) 1 1 10, .clock false 11, .timer]

theorem forever_fires : ¬Always step NotEarly { realTime := true, clock := 5 } foreverLabels := by
  decide +kernel

end Timers
end Cotamer
