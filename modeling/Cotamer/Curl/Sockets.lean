import Cotamer.Curl
import Mathlib.Data.List.Nodup

/-! Who has the descriptors: each is open while the map of sockets or a coroutine has a
handle of it, and is closed once. -/
namespace Cotamer.Curl
open Fd.Watches (FdEvent)
open Transition

namespace CurlDriver

variable {s t : CurlDriver} {held : Nat → Nat} {n b : Nat} {w w' : Watch}

/-- One handle of `b`. -/
def one (b c : Nat) : Nat := if c = b then 1 else 0

@[simp] theorem one_self : one b b = 1 := if_pos rfl

theorem one_ne {c : Nat} (other : c ≠ b) : one b c = 0 := if_neg other

/-- Whether the entry is a handle of `c`. -/
def entry (o : Option Nat) (c : Nat) : Nat := o.elim 0 fun b => one b c

@[simp] theorem entry_none (c : Nat) : entry none c = 0 := rfl

@[simp] theorem entry_some (b c : Nat) : entry (some b) c = one b c := rfl

/-- The handles of a body: at most one in the map and one in a frame. -/
def handles (s : CurlDriver) (b : Nat) : Nat :=
  entry (s.fds (s.bodies b).fileno) b + entry ((s.watches (s.bodies b).fileno).map Watch.f) b

/-- `held` counts the handles that are about to be stored or destroyed. -/
structure Owned (s : CurlDriver) (held : Nat → Nat) : Prop where
  files : ∀ n b, s.fds n = some b → b < s.next ∧ (s.bodies b).fileno = n
  frames : ∀ n w, s.watches n = some w → w.f < s.next ∧ (s.bodies w.f).fileno = n
  counted : ∀ b < s.next, (s.bodies b).refs = s.handles b + held b
  kernel : ∀ n b, s.kernel n = some b ↔ b < s.next ∧ (s.bodies b).fileno = n ∧ 0 < (s.bodies b).refs
  strays : s.strays = []
  once : s.closed.Nodup
  closed : ∀ b, b ∈ s.closed ↔ b < s.next ∧ (s.bodies b).refs = 0

/-- Other fields do not matter. -/
theorem Owned.congr (owned : s.Owned held) (fds : t.fds = s.fds) (watches : t.watches = s.watches)
    (bodies : t.bodies = s.bodies) (kernel : t.kernel = s.kernel) (next : t.next = s.next)
    (closed : t.closed = s.closed) (strays : t.strays = s.strays) : t.Owned held := by
  obtain ⟨f, w, c, k, n, o, z⟩ := owned
  constructor <;> simp only [handles, fds, watches, bodies, kernel, next, closed, strays] <;> assumption

theorem Owned.open_file (owned : s.Owned held) (found : s.fds n = some b) : s.kernel n = some b := by
  obtain ⟨old, number⟩ := owned.files n b found
  refine (owned.kernel n b).mpr ⟨old, number, ?_⟩
  rw [owned.counted b old, handles, number, found, entry_some, one_self]
  omega

theorem Owned.open_frame (owned : s.Owned held) (found : s.watches n = some w) : s.kernel n = some w.f := by
  obtain ⟨old, number⟩ := owned.frames n w found
  refine (owned.kernel n w.f).mpr ⟨old, number, ?_⟩
  rw [owned.counted w.f old, handles, number, found, Option.map_some, entry_some, one_self]
  omega

/-- What is counted after a handle of the body is destroyed. -/
theorem dropHandle_bodies (s : CurlDriver) (b c : Nat) :
    ((s.dropHandle b).bodies c).fileno = (s.bodies c).fileno ∧
      ((s.dropHandle b).bodies c).refs = (s.bodies c).refs - one b c := by
  have same : (s.dropHandle b).bodies =
      Function.update s.bodies b { s.bodies b with refs := (s.bodies b).refs - 1 } := by
    simp only [dropHandle]
    split
    · split <;> rfl
    · rfl
  rw [same]
  by_cases here : c = b
  · subst here
    simp
  · simp [here, one_ne here]

theorem dropHandle_frame (s : CurlDriver) (b : Nat) :
    ∃ bodies kernel closed strays, s.dropHandle b = { s with bodies, kernel, closed, strays } := by
  simp only [dropHandle]
  split
  · split <;> exact ⟨_, _, _, _, rfl⟩
  · exact ⟨_, _, _, _, rfl⟩

@[simp] theorem dropHandle_fds (s : CurlDriver) (b : Nat) : (s.dropHandle b).fds = s.fds := by
  obtain ⟨_, _, _, _, same⟩ := dropHandle_frame s b
  rw [same]

@[simp] theorem dropHandle_watches (s : CurlDriver) (b : Nat) : (s.dropHandle b).watches = s.watches := by
  obtain ⟨_, _, _, _, same⟩ := dropHandle_frame s b
  rw [same]

@[simp] theorem dropHandle_next (s : CurlDriver) (b : Nat) : (s.dropHandle b).next = s.next := by
  obtain ⟨_, _, _, _, same⟩ := dropHandle_frame s b
  rw [same]

@[simp] theorem dropHandle_call (s : CurlDriver) (b : Nat) : (s.dropHandle b).call = s.call := by
  obtain ⟨_, _, _, _, same⟩ := dropHandle_frame s b
  rw [same]

@[simp] theorem dropHandle_currentSocket (s : CurlDriver) (b : Nat) :
    (s.dropHandle b).currentSocket = s.currentSocket := by
  obtain ⟨_, _, _, _, same⟩ := dropHandle_frame s b
  rw [same]

@[simp] theorem dropHandle_crashed (s : CurlDriver) (b : Nat) : (s.dropHandle b).crashed = s.crashed := by
  obtain ⟨_, _, _, _, same⟩ := dropHandle_frame s b
  rw [same]

@[simp] theorem dropHandle_wanted (s : CurlDriver) (b : Nat) : (s.dropHandle b).wanted = s.wanted := by
  obtain ⟨_, _, _, _, same⟩ := dropHandle_frame s b
  rw [same]

/-- The last handle of a body closes its own descriptor. -/
theorem dropHandle_closes (owned : s.Owned (one b)) (old : b < s.next) :
    (s.dropHandle b).strays = [] ∧
      (s.dropHandle b).kernel = (if (s.bodies b).refs = 1 then Function.update s.kernel (s.bodies b).fileno none
        else s.kernel) ∧
      (s.dropHandle b).closed = if (s.bodies b).refs = 1 then s.closed ++ [b] else s.closed := by
  unfold dropHandle
  by_cases last : (s.bodies b).refs = 1
  · have here : s.kernel (s.bodies b).fileno = some b :=
      (owned.kernel _ b).mpr ⟨old, rfl, by omega⟩
    simp only [if_pos last, if_pos here]
    exact ⟨owned.strays, trivial, trivial⟩
  · simp only [if_neg last]
    exact ⟨owned.strays, trivial, trivial⟩

theorem Owned.drop (owned : s.Owned (one b)) (old : b < s.next) : (s.dropHandle b).Owned (fun _ => 0) := by
  obtain ⟨strays, kernel, closed⟩ := dropHandle_closes owned old
  have number := fun c => (dropHandle_bodies s b c).1
  have refs := fun c => (dropHandle_bodies s b c).2
  have count := owned.counted b old
  rw [one_self] at count
  constructor
  · simp only [dropHandle_fds, dropHandle_next, number]
    exact owned.files
  · simp only [dropHandle_watches, dropHandle_next, number]
    exact owned.frames
  · intro c young
    rw [dropHandle_next] at young
    have counted := owned.counted c young
    simp only [refs, handles, number, dropHandle_fds, dropHandle_watches] at counted ⊢
    omega
  · intro m c
    rw [dropHandle_next, number, refs, kernel]
    have known := owned.kernel m c
    split
    next last =>
      by_cases here : m = (s.bodies b).fileno
      · subst here
        rw [Function.update_self]
        refine iff_of_false nofun fun ⟨young, place, used⟩ => ?_
        -- two open bodies with one number are one
        have same : s.kernel (s.bodies b).fileno = some c := known.mpr ⟨young, place, by omega⟩
        have mine : s.kernel (s.bodies b).fileno = some b := (owned.kernel _ b).mpr ⟨old, rfl, by omega⟩
        cases Option.some.inj (mine.symm.trans same)
        rw [one_self, last] at used
        omega
      · rw [Function.update_of_ne here, known]
        by_cases there : c = b
        · subst there
          exact iff_of_false (fun ⟨_, place, _⟩ => here place.symm) fun ⟨_, place, _⟩ => here place.symm
        · rw [one_ne there, Nat.sub_zero]
    next more =>
      rw [known]
      by_cases there : c = b
      · subst there
        rw [one_self]
        constructor <;> rintro ⟨young, place, used⟩ <;> exact ⟨young, place, by omega⟩
      · rw [one_ne there, Nat.sub_zero]
  · exact strays
  · rw [closed]
    split
    next last =>
      refine List.Nodup.append owned.once (List.nodup_singleton b) ?_
      rintro c member (_ | ⟨_, ⟨⟩⟩)
      have := ((owned.closed b).mp member).2
      omega
    next => exact owned.once
  · intro c
    rw [closed, dropHandle_next, refs]
    have known := owned.closed c
    by_cases there : c = b
    · subst there
      rw [one_self]
      split
      next last => exact iff_of_true (List.mem_append_right _ List.mem_cons_self) ⟨old, by omega⟩
      next more =>
        rw [known]
        constructor <;> rintro ⟨_, none⟩ <;> omega
    · rw [one_ne there, Nat.sub_zero, ← known]
      split
      next => simp [there]
      next => rfl

/-- The entry of a socket is taken out, and its handle with it. -/
theorem Owned.close (owned : s.Owned fun _ => 0) (found : s.fds n = some b) :
    { s with fds := Function.update s.fds n none }.Owned (one b) := by
  obtain ⟨old, number⟩ := owned.files n b found
  constructor
  · intro m c kept
    by_cases here : m = n
    · subst here
      simp at kept
    · simp only [Function.update_of_ne here] at kept
      exact owned.files m c kept
  · exact owned.frames
  · intro c young
    rw [owned.counted c young]
    simp only [handles]
    by_cases here : (s.bodies c).fileno = n
    · rw [here, Function.update_self, found, entry_none, entry_some]
      omega
    · have there : c ≠ b := fun same => here (same ▸ number)
      rw [Function.update_of_ne here, one_ne there]
  · exact owned.kernel
  · exact owned.strays
  · exact owned.once
  · exact owned.closed

theorem Owned.unwatch (owned : s.Owned fun _ => 0) (found : s.watches n = some w) (crashed : Bool) :
    { s with watches := Function.update s.watches n none, crashed }.Owned (one w.f) := by
  obtain ⟨old, number⟩ := owned.frames n w found
  constructor
  · exact owned.files
  · intro m v kept
    by_cases here : m = n
    · subst here
      simp at kept
    · simp only [Function.update_of_ne here] at kept
      exact owned.frames m v kept
  · intro c young
    rw [owned.counted c young]
    simp only [handles]
    by_cases here : (s.bodies c).fileno = n
    · rw [here, Function.update_self, found, Option.map_some, Option.map_none, entry_none, entry_some]
      omega
    · have there : c ≠ w.f := fun same => here (same ▸ number)
      rw [Function.update_of_ne here, one_ne there]
  · exact owned.kernel
  · exact owned.strays
  · exact owned.once
  · exact owned.closed

/-- A frame goes on with its handle. -/
theorem Owned.rewatch (owned : s.Owned held) (found : s.watches n = some w) (same : w'.f = w.f) :
    { s with watches := Function.update s.watches n (some w') }.Owned held := by
  have maps : ∀ m, (Function.update s.watches n (some w') m).map Watch.f = (s.watches m).map Watch.f := by
    intro m
    by_cases here : m = n
    · subst here
      rw [Function.update_self, found, Option.map_some, Option.map_some, same]
    · rw [Function.update_of_ne here]
  constructor
  · exact owned.files
  · intro m v kept
    by_cases here : m = n
    · subst here
      simp only [Function.update_self, Option.some.injEq] at kept
      subst kept
      exact same ▸ owned.frames m w found
    · simp only [Function.update_of_ne here] at kept
      exact owned.frames m v kept
  · intro c young
    rw [owned.counted c young]
    simp only [handles, maps]
  · exact owned.kernel
  · exact owned.strays
  · exact owned.once
  · exact owned.closed

theorem closeSocketCb_owned (owned : s.Owned fun _ => 0) : (s.closeSocketCb n).Owned fun _ => 0 := by
  unfold closeSocketCb
  split
  next => exact owned
  next b found => exact (owned.close found).drop (owned.files n b found).1

theorem eraseWatch_owned (owned : s.Owned fun _ => 0) : (s.eraseWatch n).Owned fun _ => 0 := by
  unfold eraseWatch
  split
  next => exact owned
  next w found => exact (owned.unwatch found _).drop (owned.frames n w found).1

theorem watchLoop_owned (owned : s.Owned fun _ => 0) (found : s.watches n = some w) :
    (s.watchLoop n w).Owned fun _ => 0 := by
  unfold watchLoop
  split
  next => exact owned.rewatch found rfl
  next =>
    rw [if_pos (by rw [found, Option.map_some])]
    exact (owned.unwatch found s.crashed).drop (owned.frames n w found).1

/-- A number that `::socket` answers has no entry. -/
theorem openSocketCb_owned (owned : s.Owned fun _ => 0) (free : s.kernel n = none) :
    (s.openSocketCb n).Owned fun _ => 0 := by
  have absent : s.fds n = none := by
    by_contra some
    obtain ⟨b, found⟩ := Option.ne_none_iff_exists'.mp some
    rw [owned.open_file found] at free
    contradiction
  have unwatched : s.watches n = none := by
    by_contra some
    obtain ⟨w, found⟩ := Option.ne_none_iff_exists'.mp some
    rw [owned.open_frame found] at free
    contradiction
  have kept : ∀ c < s.next, Function.update s.bodies s.next ⟨n, 1⟩ c = s.bodies c := fun c young =>
    Function.update_of_ne (Nat.ne_of_lt young) _ _
  unfold openSocketCb
  simp only [absent]
  constructor
  · intro m c found
    by_cases here : m = n
    · subst here
      simp only [Function.update_self, Option.some.injEq] at found
      subst found
      simp
    · simp only [Function.update_of_ne here] at found
      obtain ⟨young, number⟩ := owned.files m c found
      exact ⟨Nat.lt_succ_of_lt young, by simp only [kept c young, number]⟩
  · intro m w found
    obtain ⟨young, number⟩ := owned.frames m w found
    exact ⟨Nat.lt_succ_of_lt young, by simp only [kept _ young, number]⟩
  · intro c young
    simp only [handles]
    rcases Nat.lt_succ_iff_lt_or_eq.mp young with old | rfl
    · rw [kept c old, owned.counted c old, handles]
      by_cases here : (s.bodies c).fileno = n
      · rw [here, Function.update_self, absent, entry_none, entry_some, one_ne (Nat.ne_of_lt old)]
      · rw [Function.update_of_ne here]
    · simp [unwatched]
  · intro m c
    dsimp only
    by_cases here : m = n
    · subst here
      rw [Function.update_self]
      by_cases there : c = s.next
      · subst there
        simp
      · refine iff_of_false (fun same => there (Option.some.inj same).symm) fun ⟨young, number, used⟩ => ?_
        have old : c < s.next := by omega
        rw [kept c old] at number used
        rw [(owned.kernel m c).mpr ⟨old, number, used⟩] at free
        contradiction
    · rw [Function.update_of_ne here, owned.kernel m c]
      constructor
      · rintro ⟨old, number, used⟩
        rw [kept c old]
        exact ⟨Nat.lt_succ_of_lt old, number, used⟩
      · rintro ⟨young, number, used⟩
        rcases Nat.lt_succ_iff_lt_or_eq.mp young with old | rfl
        · rw [kept c old] at number used
          exact ⟨old, number, used⟩
        · rw [Function.update_self] at number
          exact absurd number.symm here
  · exact owned.strays
  · exact owned.once
  · intro c
    dsimp only
    rw [owned.closed c]
    constructor
    · rintro ⟨old, none⟩
      rw [kept c old]
      exact ⟨Nat.lt_succ_of_lt old, none⟩
    · rintro ⟨young, none⟩
      rcases Nat.lt_succ_iff_lt_or_eq.mp young with old | rfl
      · rw [kept c old] at none
        exact ⟨old, none⟩
      · simp at none

/-- A new coroutine copies the handle of its socket. -/
theorem Owned.start (owned : s.Owned fun _ => 0) (found : s.fds n = some b) (free : s.watches n = none)
    (same : w.f = b) (wanted : Nat → Nat) (nextWatch : Nat) :
    { s with
      bodies := Function.update s.bodies b { s.bodies b with refs := (s.bodies b).refs + 1 }
      watches := Function.update s.watches n (some w), wanted, nextWatch }.Owned fun _ => 0 := by
  obtain ⟨old, place⟩ := owned.files n b found
  have used : 0 < (s.bodies b).refs := ((owned.kernel n b).mp (owned.open_file found)).2.2
  have number : ∀ c, (Function.update s.bodies b { s.bodies b with refs := (s.bodies b).refs + 1 } c).fileno =
      (s.bodies c).fileno := by
    intro c
    by_cases here : c = b
    · subst here
      rw [Function.update_self]
    · rw [Function.update_of_ne here]
  have refs : ∀ c, (Function.update s.bodies b { s.bodies b with refs := (s.bodies b).refs + 1 } c).refs =
      (s.bodies c).refs + one b c := by
    intro c
    by_cases here : c = b
    · subst here
      rw [Function.update_self, one_self]
    · rw [Function.update_of_ne here, one_ne here, Nat.add_zero]
  constructor
  · simp only [number]
    exact owned.files
  · intro m v kept
    simp only [number]
    by_cases here : m = n
    · subst here
      simp only [Function.update_self, Option.some.injEq] at kept
      subst kept
      exact same ▸ ⟨old, place⟩
    · simp only [Function.update_of_ne here] at kept
      exact owned.frames m v kept
  · intro c young
    have counted := owned.counted c young
    simp only [refs, handles, number] at counted ⊢
    by_cases here : (s.bodies c).fileno = n
    · rw [here, Function.update_self, Option.map_some, entry_some, same]
      rw [here, free, Option.map_none, entry_none] at counted
      omega
    · have there : c ≠ b := fun equal => here (equal ▸ place)
      rw [Function.update_of_ne here, one_ne there]
      omega
  · intro m c
    dsimp only
    rw [owned.kernel m c, number, refs]
    by_cases there : c = b
    · subst there
      rw [one_self]
      constructor <;> rintro ⟨young, at_, _⟩ <;> exact ⟨young, at_, by omega⟩
    · rw [one_ne there, Nat.add_zero]
  · exact owned.strays
  · exact owned.once
  · intro c
    dsimp only
    rw [owned.closed c, refs]
    by_cases there : c = b
    · subst there
      rw [one_self]
      constructor <;> rintro ⟨_, none⟩ <;> omega
    · rw [one_ne there, Nat.add_zero]

theorem socketCb_owned (owned : s.Owned fun _ => 0) (what : Nat) : (s.socketCb n what).Owned fun _ => 0 := by
  have owned' : { s with wanted := Function.update s.wanted n what }.Owned fun _ => 0 :=
    owned.congr rfl rfl rfl rfl rfl rfl rfl
  simp only [socketCb]
  split
  next => exact eraseWatch_owned owned'
  next keeps =>
    split
    next w found => exact owned'.rewatch found rfl
    next free =>
      split
      next => exact owned'
      next polled =>
        split
        next => exact owned'
        next b found =>
          simp only [watchLoop, ne_eq, polled, not_false_eq_true, if_true]
          exact owned.start found free rfl _ _

/-- The coroutine on the stack is the one of the socket in `current_socket_`, and its
frame is there. -/
def Stacked (s : CurlDriver) : Prop :=
  match s.call with
  | some (.watch n id _) => s.currentSocket = some n ∧ (s.watches n).map Watch.id = some id
  | _ => s.currentSocket = none

structure Wf (s : CurlDriver) : Prop where
  owned : s.Owned fun _ => 0
  stacked : s.Stacked
  alive : s.crashed = false

theorem Wf.of (owned : s.Owned fun _ => 0) (kept : s.Stacked ∧ s.crashed = false) : s.Wf :=
  ⟨owned, kept.1, kept.2⟩

theorem Stacked.keep (stacked : s.Stacked) (call : t.call = s.call) (current : t.currentSocket = s.currentSocket)
    (same : ∀ m, s.currentSocket = some m → (t.watches m).map Watch.id = (s.watches m).map Watch.id) :
    t.Stacked := by
  unfold Stacked at stacked ⊢
  rw [call, current]
  cases here : s.call with
  | none =>
    rw [here] at stacked
    exact stacked
  | some c =>
    rw [here] at stacked
    cases c with
    | client | timer => exact stacked
    | watch n id bits => exact ⟨stacked.1, (same n stacked.1).trans stacked.2⟩

theorem Stacked.idle (stacked : s.Stacked) (quiet : s.call = none) : s.currentSocket = none := by
  simpa only [Stacked, quiet] using stacked

/-- The frames that are running. -/
theorem Stacked.current (stacked : s.Stacked) (running : s.isRunning n i = true) : s.currentSocket = some n := by
  unfold isRunning at running
  split at running
  next sock id bits here =>
    simp only [Stacked, here] at stacked
    simp only [Bool.and_eq_true, beq_iff_eq] at running
    exact running.1 ▸ stacked.1
  next => contradiction

theorem eraseWatch_kept (stacked : s.Stacked) (alive : s.crashed = false) (other : s.currentSocket ≠ some n) :
    (s.eraseWatch n).Stacked ∧ (s.eraseWatch n).crashed = false := by
  unfold eraseWatch
  split
  next => exact ⟨stacked, alive⟩
  next w found =>
    constructor
    · refine stacked.keep (dropHandle_call _ _) (dropHandle_currentSocket _ _) fun m current => ?_
      rw [dropHandle_watches]
      dsimp only
      rw [Function.update_of_ne fun same : m = n => other (same ▸ current)]
    · rw [dropHandle_crashed]
      refine Bool.or_eq_false_iff.mpr ⟨alive, ?_⟩
      by_contra running
      exact other (stacked.current (Bool.not_eq_false _ ▸ running))

theorem Stacked.rewatch (stacked : s.Stacked) (found : s.watches n = some w) (same : w'.id = w.id)
    (wanted : Nat → Nat) : { s with watches := Function.update s.watches n (some w'), wanted }.Stacked := by
  refine stacked.keep rfl rfl fun m _ => ?_
  dsimp only
  by_cases here : m = n
  · subst here
    rw [Function.update_self, found, Option.map_some, Option.map_some, same]
  · rw [Function.update_of_ne here]

theorem socketCb_wf (wf : s.Wf) (what : Nat) : (s.socketCb n what).Wf := by
  have stacked : { s with wanted := Function.update s.wanted n what }.Stacked :=
    wf.stacked.keep rfl rfl fun _ _ => rfl
  refine .of (socketCb_owned wf.owned what) ?_
  simp only [socketCb]
  split
  next removed => exact eraseWatch_kept stacked wf.alive removed.2
  next =>
    split
    next w found =>
      exact ⟨wf.stacked.rewatch found (by rfl) _, wf.alive⟩
    next free =>
      split
      next => exact ⟨stacked, wf.alive⟩
      next polled =>
        split
        next => exact ⟨stacked, wf.alive⟩
        next b found =>
          simp only [watchLoop, ne_eq, polled, not_false_eq_true, if_true]
          refine ⟨stacked.keep rfl rfl fun m current => ?_, wf.alive⟩
          have other : m ≠ n := by
            rintro rfl
            have there := stacked
            unfold Stacked at there
            split at there
            next sock id bits here =>
              cases Option.some.inj (current.symm.trans there.1)
              rw [free] at there
              exact absurd there.2 nofun
            next => exact absurd (current.symm.trans there) nofun
          dsimp only
          rw [Function.update_of_ne other]

theorem watchLoop_wf (wf : s.Wf) (quiet : s.call = none) (found : s.watches n = some w) : (s.watchLoop n w).Wf := by
  refine .of (watchLoop_owned wf.owned found) ?_
  have none := wf.stacked.idle quiet
  unfold watchLoop
  split
  next =>
    exact ⟨wf.stacked.keep rfl rfl fun m current => absurd (none.symm.trans current) nofun, wf.alive⟩
  next =>
    rw [if_pos (by rw [found, Option.map_some])]
    refine ⟨wf.stacked.keep ?_ ?_ fun m current => absurd (none.symm.trans current) nofun, ?_⟩
    · exact dropHandle_call _ _
    · exact dropHandle_currentSocket _ _
    · exact (dropHandle_crashed _ _).trans wf.alive

theorem openSocketCb_wf (wf : s.Wf) (free : s.kernel n = none) : (s.openSocketCb n).Wf := by
  refine .of (openSocketCb_owned wf.owned free) ?_
  simp only [openSocketCb]
  split
  next => exact ⟨wf.stacked.keep rfl rfl fun _ _ => rfl, wf.alive⟩
  next =>
    refine ⟨wf.stacked.keep ?_ ?_ fun m _ => ?_, ?_⟩
    · exact dropHandle_call _ _
    · exact dropHandle_currentSocket _ _
    · rw [dropHandle_watches]
    · exact (dropHandle_crashed _ _).trans wf.alive

theorem closeSocketCb_wf (wf : s.Wf) : (s.closeSocketCb n).Wf := by
  refine .of (closeSocketCb_owned wf.owned) ?_
  unfold closeSocketCb
  split
  next => exact ⟨wf.stacked, wf.alive⟩
  next =>
    refine ⟨wf.stacked.keep ?_ ?_ fun m _ => ?_, ?_⟩
    · exact dropHandle_call _ _
    · exact dropHandle_currentSocket _ _
    · rw [dropHandle_watches]
    · exact (dropHandle_crashed _ _).trans wf.alive

/-- What only the timer changes. -/
theorem timerLoop_wf (wf : s.Wf) : s.timerLoop.Wf := by
  unfold timerLoop
  split
  next => exact ⟨wf.owned.congr rfl rfl rfl rfl rfl rfl rfl, wf.stacked.keep rfl rfl fun _ _ => rfl, wf.alive⟩
  next => exact wf

theorem step_wf (wf : s.Wf) (moved : s.step l = some t) : t.Wf := by
  cases l with
  | enter =>
      obtain ⟨quiet, moved⟩ := Option.ite_none_right_eq_some.mp moved
      cases Option.some.inj moved
      exact ⟨wf.owned.congr rfl rfl rfl rfl rfl rfl rfl, wf.stacked.idle quiet, wf.alive⟩
  | ret =>
      simp only [step] at moved
      split at moved
      next => contradiction
      next here =>
        cases Option.some.inj moved
        have none : s.currentSocket = none := by simpa only [Stacked, here] using wf.stacked
        exact ⟨wf.owned.congr rfl rfl rfl rfl rfl rfl rfl, none, wf.alive⟩
      next here =>
        cases Option.some.inj moved
        have none : s.currentSocket = none := by simpa only [Stacked, here] using wf.stacked
        exact timerLoop_wf ⟨wf.owned.congr rfl rfl rfl rfl rfl rfl rfl, none, wf.alive⟩
      next n id bits here =>
        split at moved
        next => contradiction
        next w found =>
          obtain ⟨_, moved⟩ := Option.ite_none_right_eq_some.mp moved
          cases Option.some.inj moved
          exact watchLoop_wf ⟨wf.owned.congr rfl rfl rfl rfl rfl rfl rfl, rfl, wf.alive⟩ rfl found
  | openSocket n nonblocking =>
      obtain ⟨called, moved⟩ := Option.ite_none_left_eq_some.mp moved
      cases Option.some.inj moved
      cases nonblocking with
      | false => exact wf
      | true => exact openSocketCb_wf wf (not_not.mp fun used => called (.inr used))
  | closeSocket n =>
      obtain ⟨_, moved⟩ := Option.ite_none_left_eq_some.mp moved
      cases Option.some.inj moved
      exact closeSocketCb_wf wf
  | socketCb n what =>
      obtain ⟨_, moved⟩ := Option.ite_none_left_eq_some.mp moved
      cases Option.some.inj moved
      exact socketCb_wf wf what
  | timerCb timeout =>
      obtain ⟨_, moved⟩ := Option.ite_none_left_eq_some.mp moved
      cases Option.some.inj moved
      exact ⟨wf.owned.congr rfl rfl rfl rfl rfl rfl rfl, wf.stacked.keep rfl rfl fun _ _ => rfl, wf.alive⟩
  | fire n bits =>
      simp only [step] at moved
      split at moved
      next id mask interest f found =>
        obtain ⟨_, moved⟩ := Option.ite_none_right_eq_some.mp moved
        cases Option.some.inj moved
        exact ⟨wf.owned.rewatch found rfl, wf.stacked.rewatch found (by rfl) _, wf.alive⟩
      next => contradiction
  | resume n =>
      simp only [step] at moved
      split at moved
      next w quiet found =>
        split at moved
        next => contradiction
        next flags _ =>
          split at moved
          next =>
            cases Option.some.inj moved
            exact watchLoop_wf wf quiet found
          next =>
            cases Option.some.inj moved
            exact ⟨wf.owned.congr rfl rfl rfl rfl rfl rfl rfl, ⟨rfl, congrArg (Option.map Watch.id) found⟩, wf.alive⟩
      next => contradiction
  | expire =>
      obtain ⟨_, moved⟩ := Option.ite_none_right_eq_some.mp moved
      cases Option.some.inj moved
      exact ⟨wf.owned.congr rfl rfl rfl rfl rfl rfl rfl, wf.stacked.keep rfl rfl fun _ _ => rfl, wf.alive⟩
  | resumeTimer =>
      obtain ⟨⟨quiet, _⟩, moved⟩ := Option.ite_none_right_eq_some.mp moved
      split at moved
      next =>
        cases Option.some.inj moved
        exact timerLoop_wf wf
      next =>
        cases Option.some.inj moved
        exact ⟨wf.owned.congr rfl rfl rfl rfl rfl rfl rfl, wf.stacked.idle quiet, wf.alive⟩

theorem initial_wf : ({} : CurlDriver).Wf := by
  refine ⟨⟨nofun, nofun, fun b young => absurd young (Nat.not_lt_zero b), fun n b => ?_, rfl, List.nodup_nil,
    fun b => ?_⟩, rfl, rfl⟩
  · exact iff_of_false nofun fun young => Nat.not_lt_zero b young.1
  · exact iff_of_false (List.not_mem_nil) fun young => Nat.not_lt_zero b young.1

theorem reached_wf (path : Reaches step {} ls s) : s.Wf := path.invariant step_wf initial_wf

/-- A descriptor is closed by its own body, once, and not while a coroutine has it. No
frame is destroyed while it runs. -/
theorem sockets_closed_once (path : Reaches step {} ls s) :
    s.crashed = false ∧ s.strays = [] ∧ s.closed.Nodup ∧
      (∀ n w, s.watches n = some w → s.kernel n = some w.f) ∧
      ∀ b < s.next, b ∈ s.closed ↔ s.kernel (s.bodies b).fileno ≠ some b := by
  have wf := reached_wf path
  refine ⟨wf.alive, wf.owned.strays, wf.owned.once, fun n w => wf.owned.open_frame, fun b young => ?_⟩
  have closed := wf.owned.closed b
  have kernel := wf.owned.kernel (s.bodies b).fileno b
  rw [closed, ne_eq, kernel]
  constructor
  · rintro ⟨_, none⟩ ⟨_, _, used⟩
    omega
  · intro unused
    exact ⟨young, Nat.eq_zero_of_not_pos fun used => unused ⟨young, rfl, used⟩⟩

/-- libcurl removes and closes a socket while the coroutine of that socket calls it. -/
theorem sockets_closed_once_removed : ∃ s : CurlDriver, s.call = some (.watch 5 0 1) ∧ s.fds 5 = none ∧
    s.kernel 5 = some 0 ∧ s.crashed = false ∧ s.closed.Nodup := by
  have ran : (run step {} [.enter, .openSocket 5 true, .socketCb 5 1, .ret, .fire 5 1, .resume 5,
      .socketCb 5 4, .closeSocket 5]).any (fun s => s.call == some (.watch 5 0 1) && s.fds 5 == none &&
      s.kernel 5 == some 0) = true := by decide
  obtain ⟨s, path, here⟩ := (Option.any_eq_true _ _).mp ran
  simp only [Bool.and_eq_true, beq_iff_eq] at here
  obtain ⟨alive, _, once, _⟩ := sockets_closed_once (run_iff_reaches.mp path)
  exact ⟨s, here.1.1, here.1.2, here.2, alive, once⟩

end CurlDriver

end Cotamer.Curl
