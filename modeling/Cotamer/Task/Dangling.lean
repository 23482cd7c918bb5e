import Cotamer.Task.Calm

/-! Links between promises, and from promises to quorums. -/
namespace Cotamer.Task
open Event Transition

namespace Coroutines

open Promises

variable {w w' : Coroutines} {t r u : TaskId} {ts args : List TaskId} {l : Label} {ls : List Label}

/-- Whatever a promise names is there. -/
def NoDangling (w : Coroutines) : Prop :=
  ∀ u p, w.promises u = some p →
    (∀ a, p.awaiter = .task a → (w.promises a).isSome = true) ∧
    (∀ c, p.forward = some c → (w.promises c).isSome = true) ∧
    ∀ e, p.awaiter = .event e → e ∉ w.freed

/-- A combinator among the frames has the task in an argument. -/
def Cleared (w : Coroutines) (ts : List TaskId) (u : TaskId) : Prop :=
  ∃ r ∈ ts, ∃ race, w.races r = some race ∧ u ∈ race.args

/-- Promises outside the frames `gone` name none of these coroutines, and no quorum of a combinator
among `ts`, but for the awaiters that these combinators clear. -/
def Unlinked (w : Coroutines) (ts gone : List TaskId) : Prop :=
  ∀ u p, u ∉ gone → w.promises u = some p →
    (¬w.Cleared ts u → (∀ a ∈ gone, p.awaiter ≠ .task a) ∧
      ∀ r ∈ ts, ∀ race, w.races r = some race → p.awaiter ≠ .event race.quorum) ∧
    ∀ c ∈ gone, p.forward ≠ some c

/-- Frames are destroyed together with every promise that names a coroutine in them, and a
combinator ends, or is destroyed, with every task that names its quorum in an argument; those
promises apart that a combinator clears. -/
def Careful (w : Coroutines) : Label → Prop
  | .after r => w.Unlinked [r] []
  | l => w.Unlinked (w.victims l) (w.victims l)

/-- A quorum that is named belongs to one combinator. -/
structure Tied (w : Coroutines) : Prop where
  awaiter : ∀ u p a, w.promises u = some p → p.awaiter = .task a → (w.promises a).isSome = true
  forward : ∀ u p c, w.promises u = some p → p.forward = some c → (w.promises c).isSome = true
  owned : ∀ u p e, w.promises u = some p → p.awaiter = .event e →
    ∃ r race, w.races r = some race ∧ race.quorum = e
  single : ∀ r r' race race', w.races r = some race → w.races r' = some race' → race.quorum = race'.quorum → r = r'
  unfreed : ∀ r race, w.races r = some race → race.quorum ∉ w.freed ∧ race.quorum < w.nextEvent
  freed : ∀ e ∈ w.freed, e < w.nextEvent

theorem Tied.noDangling (tied : w.Tied) : w.NoDangling := by
  refine fun u p there => ⟨fun a => tied.awaiter u p a there, fun c => tied.forward u p c there, fun e names => ?_⟩
  obtain ⟨r, race, racing, rfl⟩ := tied.owned u p e there names
  exact (tied.unfreed r race racing).1

/-- Links are dropped at most. -/
structure Loosens (w w' : Coroutines) : Prop where
  live : ∀ u, (w'.promises u).isSome = (w.promises u).isSome
  before : ∀ u q, w'.promises u = some q → ∃ p, w.promises u = some p ∧
    (q.awaiter = p.awaiter ∨ q.awaiter = .nobody) ∧ (q.forward = p.forward ∨ q.forward = none)
  races : w'.races = w.races
  freed : w'.freed = w.freed
  nextEvent : w.nextEvent ≤ w'.nextEvent

theorem Calms.loosens (calms : Calms w w') : Loosens w w' where
  live := calms.promises.live
  before u q after := by
    obtain ⟨p, there, calm⟩ := calms.promises.before u q after
    exact ⟨p, there, calm.awaiter, calm.forward⟩
  races := calms.races
  freed := calms.freed
  nextEvent := calms.nextEvent

theorem modify_loosens {f : Promise → Promise} (awaiter : ∀ p, (f p).awaiter = p.awaiter)
    (forward : ∀ p, (f p).forward = p.forward) : Loosens w (w.modify t f) := by
  refine ⟨fun u => modify_live .., fun u q after => ?_, rfl, rfl, Nat.le_refl _⟩
  obtain ⟨p, there, ⟨_, rfl⟩ | ⟨_, rfl⟩⟩ := modify_some after
  · exact ⟨q, there, .inl rfl, .inl rfl⟩
  · exact ⟨p, there, .inl (awaiter p), .inl (forward p)⟩

theorem Loosens.refl (w : Coroutines) : Loosens w w :=
  ⟨fun _ => rfl, fun _ q there => ⟨q, there, .inl rfl, .inl rfl⟩, rfl, rfl, Nat.le_refl _⟩

theorem start_loosens (w : Coroutines) (t : TaskId) (p : Promise) : Loosens w (w.start t p) := by
  unfold start
  split
  · exact .refl w
  · split
    · exact (trigger_calms w p.interest).loosens
    · exact modify_loosens (fun _ => rfl) fun _ => rfl

theorem makeInterest_loosens (w : Coroutines) (t : TaskId) (p : Promise) : Loosens w (w.makeInterest t p).2 := by
  unfold makeInterest
  split
  · exact .refl w
  · have set : Loosens w (w.modify t ({ · with interest := some w.nextEvent, hasInterest := true })) :=
      modify_loosens (fun _ => rfl) fun _ => rfl
    exact ⟨set.live, set.before, rfl, rfl, Nat.le_succ _⟩

theorem Tied.loosens (tied : w.Tied) (loosens : Loosens w w') : w'.Tied := by
  refine ⟨fun u q a after names => ?_, fun u q c after names => ?_, fun u q e after names => ?_, ?_, ?_, ?_⟩
  · obtain ⟨p, there, same | dropped, _⟩ := loosens.before u q after
    · rw [loosens.live]
      exact tied.awaiter u p a there (same ▸ names)
    · rw [dropped] at names
      contradiction
  · obtain ⟨p, there, _, same | dropped⟩ := loosens.before u q after
    · rw [loosens.live]
      exact tied.forward u p c there (same ▸ names)
    · rw [dropped] at names
      contradiction
  · obtain ⟨p, there, same | dropped, _⟩ := loosens.before u q after
    · rw [loosens.races]
      exact tied.owned u p e there (same ▸ names)
    · rw [dropped] at names
      contradiction
  · rw [loosens.races]
    exact tied.single
  · rw [loosens.races, loosens.freed]
    intro r race racing
    obtain ⟨unfreed, small⟩ := tied.unfreed r race racing
    exact ⟨unfreed, Nat.lt_of_lt_of_le small loosens.nextEvent⟩
  · rw [loosens.freed]
    exact fun e gone => Nat.lt_of_lt_of_le (tied.freed e gone) loosens.nextEvent

/-! Combinators end, and frames are destroyed. -/

theorem endRace_races (w : Coroutines) (r r' : TaskId) :
    (w.endRace r).races r' = if r' = r then none else w.races r' := by
  unfold endRace
  split
  · rename_i none
    split
    · rename_i same
      rw [same, none]
    · rfl
  · rfl

theorem mem_endRace_freed (w : Coroutines) (r : TaskId) (e : EventId) :
    e ∈ (w.endRace r).freed ↔ (∃ race, w.races r = some race ∧ race.quorum = e) ∨ e ∈ w.freed := by
  unfold endRace
  split
  · rename_i none
    simp [none]
  · rename_i race racing
    simp [racing, eq_comm]

theorem endRace_some {q : Promise} (after : (w.endRace r).promises u = some q) :
    ∃ p, w.promises u = some p ∧ q.forward = p.forward ∧
      (q.awaiter = .nobody ∨ (∀ race, w.races r = some race → u ∉ race.args) ∧ q.awaiter = p.awaiter) := by
  unfold endRace at after
  split at after
  · rename_i none
    exact ⟨q, after, rfl, .inr ⟨by simp [none], rfl⟩⟩
  · rename_i race racing
    obtain ⟨p, there, ⟨outside, rfl⟩ | ⟨_, rfl⟩⟩ := setAwaiters_some after
    · refine ⟨q, there, rfl, .inr ⟨fun race' racing' => ?_, rfl⟩⟩
      cases Option.some.inj (racing.symm.trans racing')
      exact outside
    · exact ⟨p, there, rfl, .inl rfl⟩

theorem endRaces_races (w : Coroutines) (ts : List TaskId) (r : TaskId) :
    (w.endRaces ts).races r = if r ∈ ts then none else w.races r := by
  induction ts generalizing w with
  | nil => rfl
  | cons r' ts ih =>
      refine (ih (w.endRace r')).trans ?_
      rw [endRace_races]
      by_cases here : r ∈ ts <;> by_cases first : r = r' <;> simp [here, first]

theorem mem_endRaces_freed (w : Coroutines) (ts : List TaskId) (e : EventId) :
    e ∈ (w.endRaces ts).freed ↔ (∃ r ∈ ts, ∃ race, w.races r = some race ∧ race.quorum = e) ∨ e ∈ w.freed := by
  induction ts generalizing w with
  | nil => simp [endRaces]
  | cons r ts ih =>
      refine (ih (w.endRace r)).trans ?_
      rw [mem_endRace_freed]
      simp only [endRace_races, Option.ite_none_left_eq_some, List.mem_cons]
      constructor
      · rintro (⟨r', member, race, ⟨_, racing⟩, same⟩ | ⟨race, racing, same⟩ | before)
        · exact .inl ⟨r', .inr member, race, racing, same⟩
        · exact .inl ⟨r, .inl rfl, race, racing, same⟩
        · exact .inr before
      · rintro (⟨r', rfl | member, race, racing, same⟩ | before)
        · exact .inr (.inl ⟨race, racing, same⟩)
        · by_cases first : r' = r
          · exact .inr (.inl ⟨race, first ▸ racing, same⟩)
          · exact .inl ⟨r', member, race, ⟨first, racing⟩, same⟩
        · exact .inr (.inr before)

theorem endRace_nextEvent (w : Coroutines) (r : TaskId) : (w.endRace r).nextEvent = w.nextEvent := by
  unfold endRace
  split <;> rfl

theorem endRaces_nextEvent (w : Coroutines) (ts : List TaskId) : (w.endRaces ts).nextEvent = w.nextEvent := by
  induction ts generalizing w with
  | nil => rfl
  | cons r ts ih => exact (ih (w.endRace r)).trans (endRace_nextEvent w r)

theorem endRaces_some {q : Promise} (after : (w.endRaces ts).promises u = some q) :
    ∃ p, w.promises u = some p ∧ q.forward = p.forward ∧
      (q.awaiter = .nobody ∨ ¬w.Cleared ts u ∧ q.awaiter = p.awaiter) := by
  induction ts generalizing w with
  | nil => exact ⟨q, after, rfl, .inr ⟨by simp [Cleared], rfl⟩⟩
  | cons r ts ih =>
      obtain ⟨m, middle, forward, cleared⟩ := ih (w := w.endRace r) after
      obtain ⟨p, there, forward', cleared'⟩ := endRace_some middle
      refine ⟨p, there, forward.trans forward', ?_⟩
      rcases cleared with nobody | ⟨outside, awaiter⟩
      · exact .inl nobody
      · rcases cleared' with nobody | ⟨outside', awaiter'⟩
        · exact .inl (awaiter.trans nobody)
        · refine .inr ⟨?_, awaiter.trans awaiter'⟩
          rintro ⟨r', member, race, racing, among⟩
          by_cases first : r' = r
          · exact outside' race (first ▸ racing) among
          · refine outside ⟨r', (List.mem_cons.mp member).resolve_left first, race, ?_, among⟩
            rw [endRace_races, if_neg first, racing]

/-- Combinators end and frames are destroyed that nothing else names. -/
theorem Tied.remove {gone : List TaskId} (tied : w.Tied) (unlinked : w.Unlinked ts gone) :
    Tied { w.endRaces ts with promises := destroyed (w.endRaces ts).promises gone } := by
  have stays : ∀ {a}, a ∉ gone → (w.promises a).isSome = true →
      (destroyed (w.endRaces ts).promises gone a).isSome = true := by
    intro a outside live
    rw [destroyed, if_neg outside, (endRaces_promises w ts).live]
    exact live
  have before : ∀ {u q}, destroyed (w.endRaces ts).promises gone u = some q → u ∉ gone ∧
      ∃ p, w.promises u = some p ∧ q.forward = p.forward ∧
        (q.awaiter = .nobody ∨ ¬w.Cleared ts u ∧ q.awaiter = p.awaiter) := by
    intro u q after
    obtain ⟨outside, there⟩ := Option.ite_none_left_eq_some.mp after
    exact ⟨outside, endRaces_some there⟩
  have racing : ∀ {r race}, (w.endRaces ts).races r = some race → r ∉ ts ∧ w.races r = some race := by
    intro r race still
    rw [endRaces_races] at still
    exact Option.ite_none_left_eq_some.mp still
  refine ⟨fun u q a after names => ?_, fun u q c after names => ?_, fun u q e after names => ?_, ?_, ?_, ?_⟩
  · obtain ⟨outside, p, there, _, nobody | ⟨uncleared, awaiter⟩⟩ := before after
    · cases nobody.symm.trans names
    · have names := awaiter.symm.trans names
      refine stays (fun member => ?_) (tied.awaiter u p a there names)
      exact ((unlinked u p outside there).1 uncleared).1 a member names
  · obtain ⟨outside, p, there, forward, _⟩ := before after
    have names := forward.symm.trans names
    refine stays (fun member => ?_) (tied.forward u p c there names)
    exact (unlinked u p outside there).2 c member names
  · obtain ⟨outside, p, there, _, nobody | ⟨uncleared, awaiter⟩⟩ := before after
    · cases nobody.symm.trans names
    · have names := awaiter.symm.trans names
      obtain ⟨r, race, still, rfl⟩ := tied.owned u p e there names
      refine ⟨r, race, ?_, rfl⟩
      refine (endRaces_races w ts r).trans ((if_neg fun member => ?_).trans still)
      exact ((unlinked u p outside there).1 uncleared).2 r member race still names
  · intro r r' race race' first second
    exact tied.single r r' race race' (racing first).2 (racing second).2
  · intro r race still
    obtain ⟨outside, still⟩ := racing still
    obtain ⟨unfreed, small⟩ := tied.unfreed r race still
    refine ⟨fun freed => ?_, Nat.lt_of_lt_of_le small (Nat.le_of_eq (endRaces_nextEvent w ts).symm)⟩
    rcases (mem_endRaces_freed w ts _).mp freed with ⟨r', member, race', racing', same⟩ | before
    · exact outside (tied.single r' r race' race racing' still same ▸ member)
    · exact unfreed before
  · intro e freed
    refine Nat.lt_of_lt_of_le ?_ (Nat.le_of_eq (endRaces_nextEvent w ts).symm)
    rcases (mem_endRaces_freed w ts e).mp freed with ⟨r, _, race, racing', rfl⟩ | before
    · exact (tied.unfreed r race racing').2
    · exact tied.freed e before

theorem Unlinked.calms {gone : List TaskId} (unlinked : w.Unlinked ts gone) (calms : Calms w w') :
    w'.Unlinked ts gone := by
  intro u q outside after
  obtain ⟨p, there, calm⟩ := calms.promises.before u q after
  obtain ⟨awaiter, forward⟩ := unlinked u p outside there
  constructor
  · intro uncleared
    rw [Cleared, calms.races] at uncleared
    obtain ⟨tasks, quorums⟩ := awaiter uncleared
    rw [calms.races]
    rcases calm.awaiter with same | dropped
    · rw [same]
      exact ⟨tasks, quorums⟩
    · rw [dropped]
      exact ⟨fun _ _ => nofun, fun _ _ _ _ => nofun⟩
  · intro c member names
    rcases calm.forward with same | dropped
    · exact forward c member (same ▸ names)
    · rw [dropped] at names
      contradiction

theorem unlinked_nil (w : Coroutines) : w.Unlinked [] [] := fun _ _ _ _ => ⟨fun _ => ⟨nofun, nofun⟩, nofun⟩

/-- The object that holds a task lets go of it, and the task is destroyed. -/
theorem Unlinked.move {owned : List TaskId} (unlinked : w.Unlinked (t :: owned) (t :: owned)) :
    (w.move t []).Unlinked (t :: owned) (t :: owned) := by
  intro u p outside there
  obtain ⟨awaiter, forward⟩ := unlinked u p outside there
  refine ⟨fun uncleared => ?_, forward⟩
  have other : u ≠ t := fun same => outside (same ▸ List.mem_cons_self)
  obtain ⟨tasks, quorums⟩ := awaiter fun ⟨r, member, race, racing, among⟩ =>
    uncleared ⟨r, member, _, congrArg (Option.map _) racing, by simp [among, other]⟩
  refine ⟨tasks, fun r member race racing => ?_⟩
  obtain ⟨race', racing', rfl⟩ := Option.map_eq_some_iff.mp racing
  exact quorums r member race' racing'

theorem Careful.victims (careful : w.Careful l) : (w.moved l).Unlinked (w.victims l) (w.victims l) := by
  cases l with
  | detach t owned =>
      have unlinked : w.Unlinked (w.victims (.detach t owned)) (w.victims (.detach t owned)) := careful
      unfold Coroutines.victims at unlinked ⊢
      dsimp only at unlinked ⊢
      split
      · rename_i resolving
        rw [if_pos resolving] at unlinked
        exact unlinked.move
      · exact unlinked_nil _
  | move t into => exact unlinked_nil _
  | after r => exact unlinked_nil _
  | _ => exact careful

theorem Tied.moved (tied : w.Tied) (l : Label) : (w.moved l).Tied := by
  have move : ∀ t into, (w.move t into).Tied := by
    intro t into
    have before : ∀ {r race}, (w.move t into).races r = some race →
        ∃ race', w.races r = some race' ∧ race'.quorum = race.quorum := by
      intro r race racing
      obtain ⟨race', racing', rfl⟩ := Option.map_eq_some_iff.mp racing
      exact ⟨race', racing', rfl⟩
    refine ⟨tied.awaiter, tied.forward, fun u p e there names => ?_, fun r r' race race' first second same => ?_,
      fun r race racing => ?_, tied.freed⟩
    · obtain ⟨r, race, racing, rfl⟩ := tied.owned u p e there names
      exact ⟨r, _, congrArg (Option.map _) racing, rfl⟩
    · obtain ⟨_, first, quorum⟩ := before first
      obtain ⟨_, second, quorum'⟩ := before second
      exact tied.single r r' _ _ first second (quorum.trans (same.trans quorum'.symm))
    · obtain ⟨race', racing, quorum⟩ := before racing
      exact quorum ▸ tied.unfreed r race' racing
  cases l with
  | detach t _ => exact move t []
  | move t into => exact move t into
  | _ => exact tied

theorem Tied.link {a : TaskId} {p aw : Promise} (tied : w.Tied) (there : w.promises t = some p)
    (awaiter : w.promises a = some aw) : (w.link t a p).Tied := by
  have rest : (w.link t a p).races = w.races ∧ (w.link t a p).freed = w.freed ∧
      (w.link t a p).nextEvent = w.nextEvent := by
    unfold Coroutines.link
    split <;> exact ⟨rfl, rfl, rfl⟩
  obtain ⟨races, freed, nextEvent⟩ := rest
  refine ⟨fun u q b after names => ?_, fun u q c after names => ?_, fun u q e after names => ?_, ?_, ?_, ?_⟩
  · obtain ⟨p', there', linked⟩ := link_some after
    rw [link_live]
    rw [linked.awaiter] at names
    split at names
    · cases names
      rw [awaiter]
      rfl
    · exact tied.awaiter u p' b there' names
  · obtain ⟨p', there', linked⟩ := link_some after
    rw [link_live]
    rw [linked.forward] at names
    split at names
    · cases Option.some.inj names
      rw [there]
      rfl
    · exact tied.forward u p' c there' names
  · obtain ⟨p', there', linked⟩ := link_some after
    rw [races]
    rw [linked.awaiter] at names
    split at names
    · contradiction
    · exact tied.owned u p' e there' names
  · rw [races]
    exact tied.single
  · rw [races, freed, nextEvent]
    exact tied.unfreed
  · rw [freed, nextEvent]
    exact tied.freed

theorem Tied.race (tied : w.Tied) (idle : w.races r = none) : (w.race r args).Tied := by
  have mine : ∀ {r' race'}, (if r' = r then some ⟨w.nextEvent, args, args⟩ else w.races r') = some race' →
      r' = r ∧ race' = ⟨w.nextEvent, args, args⟩ ∨ r' ≠ r ∧ w.races r' = some race' := by
    intro r' race' racing
    split at racing
    · rename_i same
      exact .inl ⟨same, (Option.some.inj racing).symm⟩
    · rename_i differs
      exact .inr ⟨differs, racing⟩
  have older : ∀ {r' race'}, w.races r' = some race' → race'.quorum ≠ w.nextEvent := fun racing =>
    Nat.ne_of_lt (tied.unfreed _ _ racing).2
  refine ⟨fun u q a after names => ?_, fun u q c after names => ?_, fun u q e after names => ?_, ?_, ?_, ?_⟩
  · obtain ⟨p, there, ⟨_, rfl⟩ | ⟨_, rfl⟩⟩ := setAwaiters_some after
    · exact (setAwaiters_live ..).trans (tied.awaiter u q a there names)
    · contradiction
  · obtain ⟨p, there, ⟨_, rfl⟩ | ⟨_, rfl⟩⟩ := setAwaiters_some after
    · exact (setAwaiters_live ..).trans (tied.forward u q c there names)
    · exact (setAwaiters_live ..).trans (tied.forward u p c there names)
  · obtain ⟨p, there, ⟨_, rfl⟩ | ⟨_, rfl⟩⟩ := setAwaiters_some after
    · obtain ⟨r', race', racing, quorum⟩ := tied.owned u q e there names
      refine ⟨r', race', (if_neg ?_).trans racing, quorum⟩
      rintro rfl
      exact nomatch idle.symm.trans racing
    · cases names
      exact ⟨r, ⟨w.nextEvent, args, args⟩, if_pos rfl, rfl⟩
  · intro r₁ r₂ race₁ race₂ first second same
    rcases mine first with ⟨rfl, rfl⟩ | ⟨_, racing⟩
    · rcases mine second with ⟨rfl, _⟩ | ⟨_, racing⟩
      · rfl
      · exact absurd same.symm (older racing)
    · rcases mine second with ⟨_, rfl⟩ | ⟨_, racing'⟩
      · exact absurd same (older racing)
      · exact tied.single r₁ r₂ race₁ race₂ racing racing' same
  · intro r' race' racing
    rcases mine racing with ⟨_, rfl⟩ | ⟨_, before⟩
    · exact ⟨fun gone => Nat.lt_irrefl _ (tied.freed _ gone), Nat.lt_succ_self _⟩
    · obtain ⟨unfreed, small⟩ := tied.unfreed r' race' before
      exact ⟨unfreed, Nat.lt_succ_of_lt small⟩
  · exact fun e gone => Nat.lt_succ_of_lt (tied.freed e gone)

theorem Tied.create (tied : w.Tied) (home : DriverId) :
    Tied { w with promises := w.promises.set w.next { home }, next := w.next + 1 } := by
  have old : ∀ {u q}, w.promises.set w.next { home } u = some q → q = { home } ∨ w.promises u = some q := by
    intro u q after
    by_cases new : u = w.next
    · subst new
      rw [set_self] at after
      exact .inl (Option.some.inj after).symm
    · rw [set_ne _ _ new] at after
      exact .inr after
  have stays : ∀ a, (w.promises a).isSome = true → (w.promises.set w.next { home } a).isSome = true := by
    intro a live
    by_cases new : a = w.next
    · subst new
      rw [set_self]
      rfl
    · rwa [set_ne _ _ new]
  refine ⟨fun u q a after names => ?_, fun u q c after names => ?_, fun u q e after names => ?_,
    tied.single, tied.unfreed, tied.freed⟩
  · rcases old after with rfl | there
    · contradiction
    · exact stays a (tied.awaiter u q a there names)
  · rcases old after with rfl | there
    · contradiction
    · exact stays c (tied.forward u q c there names)
  · rcases old after with rfl | there
    · contradiction
    · exact tied.owned u q e there names

theorem step_tied (tied : w.Tied) (careful : w.Careful l) (made : w.step l = some w') : w'.Tied := by
  cases step_change made with
  | created home => exact tied.create home
  | calm calms => exact (tied.moved l).loosens calms.loosens
  | destroyed calms => exact ((tied.moved l).loosens calms.loosens).remove (careful.victims.calms calms)
  | @started t p there =>
      have loosens := start_loosens w t p
      exact (tied.loosens loosens).loosens ⟨fun _ => rfl, (Loosens.refl _).before, rfl, rfl, Nat.le_refl _⟩
  | @asked t p there =>
      have loosens := makeInterest_loosens w t p
      exact (tied.loosens loosens).loosens ⟨fun _ => rfl, (Loosens.refl _).before, rfl, rfl, Nat.le_refl _⟩
  | @prepared t a p aw w₁ there awaiter same calms =>
      have linked := (tied.link there awaiter).loosens calms.loosens
      exact linked.loosens ⟨fun _ => rfl, (Loosens.refl w₁).before, rfl, rfl, Nat.le_refl _⟩
  | raced there idle => exact tied.race idle
  | @ended r _ _ =>
      have removed : Tied { w.endRaces [r] with promises := destroyed (w.endRaces [r]).promises [] } :=
        tied.remove careful
      have same : destroyed (w.endRaces [r]).promises [] = (w.endRaces [r]).promises :=
        funext fun _ => if_neg List.not_mem_nil
      rwa [same] at removed

theorem initial_tied : Tied {} where
  awaiter _ _ _ there := nomatch there
  forward _ _ _ there := nomatch there
  owned _ _ _ there := nomatch there
  single _ _ _ _ racing := nomatch racing
  unfreed _ _ racing := nomatch racing
  freed _ gone := nomatch gone

/-- A task that completes resumes a coroutine that is there. -/
def ResumesLive (w : Coroutines) : Prop :=
  ∀ t p, w.promises t = some p → resumesAwaiter p = true → ∃ a aw, p.awaiter = .task a ∧ w.promises a = some aw

theorem NoDangling.resumesLive (sound : w.NoDangling) : w.ResumesLive := by
  intro t p there resumes
  unfold resumesAwaiter at resumes
  split at resumes
  · rename_i a awaiter
    obtain ⟨aw, live⟩ := Option.isSome_iff_exists.mp ((sound t p there).1 a awaiter)
    exact ⟨a, aw, awaiter, live⟩
  · contradiction
  · contradiction

theorem careful_quiet (quiet : w.victims l = []) (going : ∀ r, l ≠ .after r) : w.Careful l := by
  cases l with
  | after r => exact absurd rfl (going r)
  | _ =>
    change w.Unlinked (w.victims _) (w.victims _)
    rw [quiet]
    exact unlinked_nil w

/-- An argument that the caller detaches is not cleared. -/
example : (run step {} [.create 0, .create 0, .race 1 [0], .detach 0 [], .after 1]).map
    (fun w => (w.promises 0, w.freed)) = some (some { awaiter := .event 0, detached := true }, [0]) := by decide

end Coroutines
end Cotamer.Task
