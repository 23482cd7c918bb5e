import Cotamer.Curl.Sockets

/-! What libcurl asked for last is what the driver does: the sockets it has polled are
watched for what it wants, and its timer is set to what it wants. -/
namespace Cotamer.Curl
open Fd.Watches (FdEvent)
open Transition

namespace CurlDriver

variable {s t : CurlDriver} {n b : Nat} {w w' : Watch}

/-- A watch that is to be removed is the one whose coroutine is on the stack. -/
structure Follows (s : CurlDriver) : Prop where
  asked : ∀ n w, s.watches n = some w → w.mask = s.wanted n
  interested : ∀ n w m, s.watches n = some w → w.ev = .pending m → m = interest w.mask
  listed : ∀ n w, s.watches n = some w → s.wanted n ≠ curlPollRemove → s.fds n = some w.f
  removed : ∀ n w, s.watches n = some w → s.wanted n = curlPollRemove → s.currentSocket = some n
  watched : ∀ n b, s.fds n = some b → s.wanted n ≠ curlPollRemove → s.watches n ≠ none

/-- Other fields do not matter, and any coroutine may run when nothing is to be removed. -/
theorem Follows.congr (follows : s.Follows) (fds : t.fds = s.fds) (watches : t.watches = s.watches)
    (wanted : t.wanted = s.wanted)
    (current : ∀ n w, s.watches n = some w → s.currentSocket = some n → t.currentSocket = some n) :
    t.Follows := by
  obtain ⟨asked, interested, listed, removed, watched⟩ := follows
  constructor <;> simp only [fds, watches, wanted]
  · exact asked
  · exact interested
  · exact listed
  · exact fun n w found gone => current n w found (removed n w found gone)
  · exact watched

/-- At one socket the maps change; what is required of it there is shown separately. -/
theorem Follows.change (follows : s.Follows) (fds : ∀ m, m ≠ n → t.fds m = s.fds m)
    (watches : ∀ m, m ≠ n → t.watches m = s.watches m) (wanted : ∀ m, m ≠ n → t.wanted m = s.wanted m)
    (current : ∀ m w, m ≠ n → s.watches m = some w → s.currentSocket = some m → t.currentSocket = some m)
    (asked : ∀ w, t.watches n = some w → w.mask = t.wanted n)
    (interested : ∀ w m, t.watches n = some w → w.ev = .pending m → m = interest w.mask)
    (listed : ∀ w, t.watches n = some w → t.wanted n ≠ curlPollRemove → t.fds n = some w.f)
    (removed : ∀ w, t.watches n = some w → t.wanted n = curlPollRemove → t.currentSocket = some n)
    (watched : ∀ b, t.fds n = some b → t.wanted n ≠ curlPollRemove → t.watches n ≠ none) : t.Follows := by
  constructor <;> intro m <;> by_cases here : m = n
  · exact here ▸ asked
  · rw [watches m here, wanted m here]
    exact follows.asked m
  · exact here ▸ interested
  · rw [watches m here]
    exact follows.interested m
  · exact here ▸ listed
  · rw [watches m here, wanted m here, fds m here]
    exact follows.listed m
  · exact here ▸ removed
  · rw [watches m here, wanted m here]
    exact fun w found gone => current m w here found (follows.removed m w found gone)
  · exact here ▸ watched
  · rw [watches m here, wanted m here, fds m here]
    exact follows.watched m

theorem eraseWatch_watches (s : CurlDriver) (n : Nat) :
    (s.eraseWatch n).watches = Function.update s.watches n none := by
  unfold eraseWatch
  split
  next free => rw [← free, Function.update_eq_self]
  next => rw [dropHandle_watches]

theorem eraseWatch_rest (s : CurlDriver) (n : Nat) : (s.eraseWatch n).fds = s.fds ∧
    (s.eraseWatch n).wanted = s.wanted ∧ (s.eraseWatch n).currentSocket = s.currentSocket := by
  unfold eraseWatch
  split
  next => exact ⟨rfl, rfl, rfl⟩
  next => exact ⟨dropHandle_fds _ _, dropHandle_wanted _ _, dropHandle_currentSocket _ _⟩

theorem socketCb_follows (wf : s.Wf) (follows : s.Follows) {what : Nat} (kept : s.Kept (.socketCb n what)) :
    (s.socketCb n what).Follows := by
  have others : ∀ m, m ≠ n → Function.update s.wanted n what m = s.wanted m := fun m other =>
    Function.update_of_ne other _ _
  simp only [socketCb]
  split
  next gone =>
    obtain ⟨fds, wanted, current⟩ := eraseWatch_rest { s with wanted := Function.update s.wanted n what } n
    have watches := eraseWatch_watches { s with wanted := Function.update s.wanted n what } n
    refine follows.change (n := n) (fun m _ => by rw [fds]) (fun m other => ?_) (fun m other => ?_)
      (fun m w _ _ running => by rw [current, running]) ?_ ?_ ?_ ?_ ?_
    · rw [watches, Function.update_of_ne other]
    · rw [wanted]
      exact others m other
    all_goals rw [watches, Function.update_self]
    · simp
    · simp
    · simp
    · simp
    · intro b _ polled
      rw [wanted] at polled
      exact absurd ((Function.update_self n what s.wanted).trans gone.1) polled
  next stays =>
    have running : what = curlPollRemove → s.currentSocket = some n := fun gone =>
      not_not.mp fun other => stays ⟨gone, other⟩
    split
    next w found =>
      refine follows.change (n := n) (fun _ _ => rfl) (fun m other => Function.update_of_ne other _ _) others
        (fun _ _ _ _ running => running) ?_ ?_ ?_ ?_ ?_ <;> simp only [Function.update_self]
      · rintro _ ⟨⟩
        rfl
      · rintro _ m ⟨⟩ pending
        cases was : w.ev <;> simp [was, WatchEvent.trigger] at pending
      · rintro _ ⟨⟩ polled
        -- libcurl has the socket open, and the frame has its descriptor
        have opened := wf.owned.open_frame found
        obtain present | absent := kept polled
        · obtain ⟨b, file⟩ := Option.ne_none_iff_exists'.mp present
          cases Option.some.inj ((wf.owned.open_file file).symm.trans opened)
          exact file
        · exact absurd (opened.symm.trans absent) (by simp)
      · rintro _ ⟨⟩ gone
        exact running gone
      · exact fun _ _ _ => by simp
    next free =>
      split
      next gone =>
        refine follows.change (n := n) (fun _ _ => rfl) (fun _ _ => rfl) others (fun _ _ _ _ running => running)
          ?_ ?_ ?_ ?_ ?_ <;> simp only [Function.update_self, free]
        · simp
        · simp
        · simp
        · simp
        · exact fun b _ polled => absurd gone polled
      next polled =>
        split
        next absent =>
          refine follows.change (n := n) (fun _ _ => rfl) (fun _ _ => rfl) others (fun _ _ _ _ running => running)
            ?_ ?_ ?_ ?_ ?_ <;> simp only [Function.update_self, free]
          · simp
          · simp
          · simp
          · simp
          · intro b file
            exact absurd (absent.symm.trans file) (by simp)
        next b file =>
          simp only [watchLoop, ne_eq, polled, not_false_eq_true, if_true]
          refine follows.change (n := n) (fun _ _ => rfl) (fun m other => Function.update_of_ne other _ _) others
            (fun _ _ _ _ running => running) ?_ ?_ ?_ ?_ ?_ <;> simp only [Function.update_self]
          · rintro _ ⟨⟩
            rfl
          · rintro _ m ⟨⟩ pending
            exact (WatchEvent.pending.inj pending).symm
          · rintro _ ⟨⟩ _
            exact file
          · rintro _ _ gone
            exact absurd gone polled
          · exact fun _ _ _ => by simp

/-- A coroutine goes on from the head of its loop when no other is to be removed. -/
theorem watchLoop_follows (follows : s.Follows) (found : s.watches n = some w)
    (fds : t.fds = s.fds) (watches : t.watches = s.watches) (wanted : t.wanted = s.wanted)
    (alone : ∀ m, s.currentSocket = some m → m = n) : (t.watchLoop n w).Follows := by
  have others : ∀ m v, m ≠ n → s.watches m = some v → s.currentSocket = some m →
      (t.watchLoop n w).currentSocket = some m := fun m _ other _ running => absurd (alone m running) other
  have mask := follows.asked n w found
  revert others
  unfold watchLoop
  split
  next polled =>
    intro others
    refine follows.change (n := n) (fun m _ => ?_) (fun m other => ?_) (fun m _ => ?_) others ?_ ?_ ?_ ?_ ?_
    · exact congrFun fds m
    · dsimp only
      rw [Function.update_of_ne other, watches]
    · exact congrFun wanted m
    all_goals simp only [Function.update_self, wanted, fds]
    · rintro _ ⟨⟩
      exact mask
    · rintro _ m ⟨⟩ pending
      exact (WatchEvent.pending.inj pending).symm
    · rintro _ ⟨⟩ there
      exact follows.listed n w found there
    · rintro _ _ gone
      exact absurd (mask.trans gone) polled
    · exact fun _ _ _ => nofun
  next gone =>
    have here : (t.watches n).map Watch.id = some w.id := by rw [watches, found, Option.map_some]
    rw [if_pos here]
    intro others
    refine follows.change (n := n) (fun m _ => ?_) (fun m other => ?_) (fun m _ => ?_) others ?_ ?_ ?_ ?_ ?_
    · rw [dropHandle_fds, fds]
    · rw [dropHandle_watches]
      dsimp only
      rw [Function.update_of_ne other, watches]
    · rw [dropHandle_wanted, wanted]
    all_goals simp only [dropHandle_watches, Function.update_self, dropHandle_wanted, wanted]
    · exact nofun
    · exact nofun
    · exact nofun
    · exact nofun
    · intro b _ polled
      exact absurd (mask.symm.trans (not_not.mp gone)) polled

theorem openSocketCb_follows (wf : s.Wf) (follows : s.Follows) (free : s.kernel n = none) :
    (s.openSocketCb n).Follows := by
  have absent : s.fds n = none := Option.eq_none_iff_forall_ne_some.mpr fun b file =>
    absurd (free.symm.trans (wf.owned.open_file file)) (by simp)
  have unwatched : s.watches n = none := Option.eq_none_iff_forall_ne_some.mpr fun w found =>
    absurd (free.symm.trans (wf.owned.open_frame found)) (by simp)
  simp only [openSocketCb, absent]
  refine follows.change (n := n) (fun m other => Function.update_of_ne other _ _) (fun _ _ => rfl)
    (fun m other => Function.update_of_ne other _ _) (fun _ _ _ _ running => running) ?_ ?_ ?_ ?_ ?_ <;>
    simp only [Function.update_self, unwatched]
  · simp
  · simp
  · simp
  · simp
  · exact fun _ _ polled => absurd rfl polled

theorem closeSocketCb_follows (follows : s.Follows) (kept : s.Kept (.closeSocket n)) :
    (s.closeSocketCb n).Follows := by
  have gone : s.wanted n = curlPollRemove := kept
  unfold closeSocketCb
  split
  next => exact follows
  next =>
    refine follows.change (n := n) (fun m other => ?_) (fun m _ => ?_) (fun m _ => ?_)
      (fun m w _ _ running => ?_) ?_ ?_ ?_ ?_ ?_
    · rw [dropHandle_fds]
      exact Function.update_of_ne other _ _
    · rw [dropHandle_watches]
    · rw [dropHandle_wanted]
    · rw [dropHandle_currentSocket, running]
    all_goals simp only [dropHandle_watches, dropHandle_wanted, dropHandle_currentSocket, dropHandle_fds,
      Function.update_self]
    · exact follows.asked n
    · exact follows.interested n
    · exact fun _ _ polled => absurd gone polled
    · exact follows.removed n
    · exact nofun

theorem timerLoop_rest (s : CurlDriver) : s.timerLoop.fds = s.fds ∧ s.timerLoop.watches = s.watches ∧
    s.timerLoop.wanted = s.wanted ∧ s.timerLoop.currentSocket = s.currentSocket := by
  unfold timerLoop
  split <;> exact ⟨rfl, rfl, rfl, rfl⟩

theorem step_follows (wf : s.Wf) (follows : s.Follows) (kept : s.Kept l) (moved : s.step l = some t) :
    t.Follows := by
  -- nothing is to be removed while no coroutine is on the stack
  have still : s.currentSocket = none → ∀ m v, s.watches m = some v → s.currentSocket = some m →
      t.currentSocket = some m := fun none m v _ running => absurd (none.symm.trans running) (by simp)
  cases l with
  | enter =>
      obtain ⟨_, moved⟩ := Option.ite_none_right_eq_some.mp moved
      cases Option.some.inj moved
      exact follows.congr rfl rfl rfl fun _ _ _ running => running
  | ret =>
      simp only [step] at moved
      split at moved
      next => contradiction
      next =>
        cases Option.some.inj moved
        exact follows.congr rfl rfl rfl fun _ _ _ running => running
      next =>
        cases Option.some.inj moved
        obtain ⟨fds, watches, wanted, current⟩ := timerLoop_rest { s with call := none }
        exact follows.congr fds watches wanted fun _ _ _ running => current.trans running
      next n id bits here =>
        have stacked := wf.stacked
        simp only [Stacked, here] at stacked
        split at moved
        next => contradiction
        next w found =>
          obtain ⟨_, moved⟩ := Option.ite_none_right_eq_some.mp moved
          cases Option.some.inj moved
          exact watchLoop_follows follows found rfl rfl rfl fun m running =>
            Option.some.inj (running.symm.trans stacked.1)
  | openSocket n nonblocking =>
      obtain ⟨called, moved⟩ := Option.ite_none_left_eq_some.mp moved
      cases Option.some.inj moved
      cases nonblocking with
      | false => exact follows
      | true => exact openSocketCb_follows wf follows (not_not.mp fun used => called (.inr used))
  | closeSocket n =>
      obtain ⟨_, moved⟩ := Option.ite_none_left_eq_some.mp moved
      cases Option.some.inj moved
      exact closeSocketCb_follows follows kept
  | socketCb n what =>
      obtain ⟨_, moved⟩ := Option.ite_none_left_eq_some.mp moved
      cases Option.some.inj moved
      exact socketCb_follows wf follows kept
  | timerCb timeout =>
      obtain ⟨_, moved⟩ := Option.ite_none_left_eq_some.mp moved
      cases Option.some.inj moved
      exact follows.congr rfl rfl rfl fun _ _ _ running => running
  | fire n bits =>
      simp only [step] at moved
      split at moved
      next id mask interest f found =>
        obtain ⟨_, moved⟩ := Option.ite_none_right_eq_some.mp moved
        cases Option.some.inj moved
        refine follows.change (n := n) (fun _ _ => rfl) (fun m other => Function.update_of_ne other _ _)
          (fun _ _ => rfl) (fun _ _ _ _ running => running) ?_ ?_ ?_ ?_ ?_ <;> simp only [Function.update_self]
        · have asked := follows.asked n _ found
          rintro _ ⟨⟩
          exact asked
        · rintro _ m ⟨⟩ pending
          exact absurd pending (by simp)
        · have listed := follows.listed n _ found
          rintro _ ⟨⟩
          exact listed
        · have removed := follows.removed n _ found
          rintro _ ⟨⟩
          exact removed
        · exact fun _ _ _ => by simp
      next => contradiction
  | resume n =>
      simp only [step] at moved
      split at moved
      next w quiet found =>
        have none := wf.stacked.idle quiet
        split at moved
        next => contradiction
        next =>
          split at moved
          next =>
            cases Option.some.inj moved
            exact watchLoop_follows follows found rfl rfl rfl fun m running =>
              absurd (none.symm.trans running) (by simp)
          next =>
            cases Option.some.inj moved
            exact follows.congr rfl rfl rfl (still none)
      next => contradiction
  | expire =>
      obtain ⟨_, moved⟩ := Option.ite_none_right_eq_some.mp moved
      cases Option.some.inj moved
      exact follows.congr rfl rfl rfl fun _ _ _ running => running
  | resumeTimer =>
      obtain ⟨_, moved⟩ := Option.ite_none_right_eq_some.mp moved
      split at moved
      next =>
        cases Option.some.inj moved
        obtain ⟨fds, watches, wanted, current⟩ := timerLoop_rest s
        exact follows.congr fds watches wanted fun _ _ _ running => current.trans running
      next =>
        cases Option.some.inj moved
        exact follows.congr rfl rfl rfl fun _ _ _ running => running

theorem reached_follows (path : Reaches step {} ls s) (kept : Meets step Kept {} ls) : s.Wf ∧ s.Follows := by
  refine path.guarded (P := fun s => s.Wf ∧ s.Follows) ?_ kept ⟨initial_wf, ?_⟩
  · exact fun ⟨wf, follows⟩ kept moved => ⟨step_wf wf moved, step_follows wf follows kept moved⟩
  · constructor <;> exact nofun

/-- Between libcurl's calls, a socket that libcurl has open is watched for what libcurl
wants, if anything, and no descriptor that libcurl has closed is open. -/
theorem watches_follow_curl (path : Reaches step {} ls s) (kept : Meets step Kept {} ls)
    (idle : s.call = none) (n : Nat) :
    (s.fds n = none → s.watches n = none ∧ s.kernel n = none) ∧
      ∀ b, s.fds n = some b → s.kernel n = some b ∧
        if s.wanted n = curlPollRemove then s.watches n = none
        else ∃ w, s.watches n = some w ∧ w.f = b ∧ w.mask = s.wanted n ∧
          ∀ m, w.ev = .pending m → m = interest (s.wanted n) := by
  obtain ⟨wf, follows⟩ := reached_follows path kept
  have none := wf.stacked.idle idle
  have polled : ∀ w, s.watches n = some w → s.wanted n ≠ curlPollRemove := fun w found gone =>
    absurd (none.symm.trans (follows.removed n w found gone)) nofun
  constructor
  · intro absent
    have free : s.watches n = Option.none := Option.eq_none_iff_forall_ne_some.mpr fun w found =>
      absurd (absent.symm.trans (follows.listed n w found (polled w found))) nofun
    refine ⟨free, Option.eq_none_iff_forall_ne_some.mpr fun b opened => ?_⟩
    obtain ⟨young, number, used⟩ := (wf.owned.kernel n b).mp opened
    rw [wf.owned.counted b young, handles, number, absent, free] at used
    exact absurd used (Nat.lt_irrefl 0)
  · intro b file
    refine ⟨wf.owned.open_file file, ?_⟩
    split
    next gone =>
      exact Option.eq_none_iff_forall_ne_some.mpr fun w found => polled w found gone
    next there =>
      obtain ⟨w, found⟩ := Option.ne_none_iff_exists'.mp (follows.watched n b file there)
      have same := follows.listed n w found there
      have mask := follows.asked n w found
      refine ⟨w, found, Option.some.inj (same.symm.trans file), mask, fun m pending => ?_⟩
      exact mask ▸ follows.interested n w m found pending

/-- The coroutine of socket 5 is told to write while it is on the stack, and socket 6 is
closed by then. -/
theorem watches_follow_curl_two : ∃ s : CurlDriver, s.call = none ∧ s.wanted 5 = 3 ∧ s.fds 5 = some 0 ∧
    s.fds 6 = none ∧ s.kernel 6 = none ∧ ∃ w, s.watches 5 = some w ∧ w.mask = 3 := by
  have ran : (run step {} [.enter, .openSocket 5 true, .openSocket 6 true, .socketCb 5 1, .socketCb 6 2, .ret,
      .fire 5 1, .resume 5, .socketCb 5 3, .socketCb 6 4, .closeSocket 6, .ret]).any (fun s => s.call == none &&
      s.wanted 5 == 3 && s.fds 5 == some 0 && s.fds 6 == none) = true := by decide
  obtain ⟨s, path, here⟩ := (Option.any_eq_true _ _).mp ran
  simp only [Bool.and_eq_true, beq_iff_eq] at here
  obtain ⟨⟨⟨idle, wanted⟩, file⟩, absent⟩ := here
  have path := run_iff_reaches.mp path
  have kept : Meets step Kept {} [.enter, .openSocket 5 true, .openSocket 6 true, .socketCb 5 1, .socketCb 6 2,
      .ret, .fire 5 1, .resume 5, .socketCb 5 3, .socketCb 6 4, .closeSocket 6, .ret] := by decide
  have closed := ((watches_follow_curl path kept idle 6).1 absent).2
  have watched := ((watches_follow_curl path kept idle 5).2 0 file).2
  rw [wanted, if_neg (by decide)] at watched
  obtain ⟨w, found, _, mask, _⟩ := watched
  exact ⟨s, idle, wanted, file, absent, closed, w, found, mask⟩

/-! The timer. -/

/-- What the event of the timer is when libcurl's request is in force. -/
def due (request : Int) : Option Nat := if request < 0 then none else some request.toNat

structure Timed (s : CurlDriver) : Prop where
  asked : s.stage = .asked → s.expiry.triggered = true ∧ s.nextTimeout = s.request
  spent : s.stage ≠ .asked → s.nextTimeout = -1 ∧ s.expiry.userFlags = 0
  armed : s.stage = .armed → s.expiry.deadline = due s.request
  served : s.stage = .served → s.expiry.triggered = false → s.expiry.deadline = none
  passed : s.expiry.triggered = true → s.expiry.userFlags = 0 → s.expiry.deadline.isSome = true
  called : s.call = some .timer → s.expiry.triggered = true ∧ s.expiry.userFlags = 0 ∧ s.stage ≠ .armed

theorem Timed.congr (timed : s.Timed) (expiry : t.expiry = s.expiry) (next : t.nextTimeout = s.nextTimeout)
    (request : t.request = s.request) (stage : t.stage = s.stage)
    (call : t.call = some .timer → s.call = some .timer) : t.Timed := by
  obtain ⟨asked, spent, armed, served, passed, called⟩ := timed
  constructor <;> simp only [expiry, next, request, stage]
  · exact asked
  · exact spent
  · exact armed
  · exact served
  · exact passed
  · exact fun here => called (call here)

theorem timerLoop_timed (timed : s.Timed) (call : t.call = none) (expiry : t.expiry = s.expiry)
    (next : t.nextTimeout = s.nextTimeout) (request : t.request = s.request) (stage : t.stage = s.stage)
    (due_ : s.expiry.triggered = true) (fired : s.stage = .armed → False) : t.timerLoop.Timed := by
  unfold timerLoop
  rw [if_pos (expiry ▸ due_)]
  have quiet : ∀ c, t.call = some c → False := fun c here => absurd (call.symm.trans here) nofun
  cases at_ : s.stage with
  | asked =>
    obtain ⟨_, same⟩ := timed.asked at_
    constructor <;> simp only [stage, at_, next, request, same, if_true]
    · exact nofun
    · intro _
      split <;> exact ⟨trivial, rfl⟩
    · intro _
      unfold due
      split <;> rfl
    · exact nofun
    · split <;> simp
    · exact fun here => (quiet _ here).elim
  | armed => exact (fired at_).elim
  | served =>
    obtain ⟨same, _⟩ := timed.spent (by rw [at_]; exact nofun)
    constructor <;> simp [stage, at_, next, same]
    exact fun here => quiet _ here

theorem dropHandle_timed (timed : s.Timed) (b : Nat) : (s.dropHandle b).Timed := by
  obtain ⟨_, _, _, _, same⟩ := dropHandle_frame s b
  rw [same]
  exact timed.congr rfl rfl rfl rfl id

theorem watchLoop_timed (timed : s.Timed) (n : Nat) (w : Watch) : (s.watchLoop n w).Timed := by
  unfold watchLoop
  split
  · exact timed.congr rfl rfl rfl rfl id
  · split
    · refine dropHandle_timed ?_ w.f
      exact timed.congr rfl rfl rfl rfl id
    · exact dropHandle_timed timed w.f

theorem eraseWatch_timed (timed : s.Timed) (n : Nat) : (s.eraseWatch n).Timed := by
  unfold eraseWatch
  split
  · exact timed
  · refine dropHandle_timed ?_ _
    exact timed.congr rfl rfl rfl rfl id

theorem socketCb_timed (timed : s.Timed) (n what : Nat) : (s.socketCb n what).Timed := by
  have timed' : { s with wanted := Function.update s.wanted n what }.Timed := timed.congr rfl rfl rfl rfl id
  simp only [socketCb]
  split
  · exact eraseWatch_timed timed' n
  · split
    · exact timed.congr rfl rfl rfl rfl id
    · split
      · exact timed'
      · split
        · exact timed'
        · refine watchLoop_timed ?_ n _
          exact timed.congr rfl rfl rfl rfl id

theorem openSocketCb_timed (timed : s.Timed) (n : Nat) : (s.openSocketCb n).Timed := by
  simp only [openSocketCb]
  split
  · exact timed.congr rfl rfl rfl rfl id
  · refine dropHandle_timed ?_ _
    exact timed.congr rfl rfl rfl rfl id

theorem closeSocketCb_timed (timed : s.Timed) (n : Nat) : (s.closeSocketCb n).Timed := by
  unfold closeSocketCb
  split
  · exact timed
  · refine dropHandle_timed ?_ _
    exact timed.congr rfl rfl rfl rfl id

/-- A request of libcurl triggers the event, if it has not triggered. -/
theorem timerCb_timed (timed : s.Timed) (timeout : Int) : (s.timerCb timeout).Timed := by
  unfold timerCb
  constructor
  · intro _
    refine ⟨?_, rfl⟩
    dsimp only
    split
    next already => exact already
    next => rfl
  · exact fun other => absurd rfl other
  · exact nofun
  · exact nofun
  · dsimp only
    split
    next already => exact fun _ => timed.passed already
    next => exact fun _ => nofun
  · intro here
    obtain ⟨already, plain, _⟩ := timed.called here
    dsimp only
    rw [if_pos already]
    exact ⟨already, plain, nofun⟩

theorem step_timed (timed : s.Timed) (moved : s.step l = some t) : t.Timed := by
  cases l with
  | enter =>
      obtain ⟨_, moved⟩ := Option.ite_none_right_eq_some.mp moved
      cases Option.some.inj moved
      exact timed.congr rfl rfl rfl rfl (by simp)
  | ret =>
      simp only [step] at moved
      split at moved
      next => contradiction
      next =>
        cases Option.some.inj moved
        exact timed.congr rfl rfl rfl rfl (by simp)
      next here =>
        cases Option.some.inj moved
        obtain ⟨already, _, other⟩ := timed.called here
        exact timerLoop_timed timed rfl rfl rfl rfl rfl already other
      next =>
        split at moved
        next => contradiction
        next =>
          obtain ⟨_, moved⟩ := Option.ite_none_right_eq_some.mp moved
          cases Option.some.inj moved
          refine watchLoop_timed ?_ _ _
          exact timed.congr rfl rfl rfl rfl (by simp)
  | openSocket n nonblocking =>
      obtain ⟨_, moved⟩ := Option.ite_none_left_eq_some.mp moved
      cases Option.some.inj moved
      cases nonblocking with
      | false => exact timed
      | true => exact openSocketCb_timed timed n
  | closeSocket n =>
      obtain ⟨_, moved⟩ := Option.ite_none_left_eq_some.mp moved
      cases Option.some.inj moved
      exact closeSocketCb_timed timed n
  | socketCb n what =>
      obtain ⟨_, moved⟩ := Option.ite_none_left_eq_some.mp moved
      cases Option.some.inj moved
      exact socketCb_timed timed n what
  | timerCb timeout =>
      obtain ⟨_, moved⟩ := Option.ite_none_left_eq_some.mp moved
      cases Option.some.inj moved
      exact timerCb_timed timed timeout
  | fire n bits =>
      simp only [step] at moved
      split at moved
      next =>
        obtain ⟨_, moved⟩ := Option.ite_none_right_eq_some.mp moved
        cases Option.some.inj moved
        exact timed.congr rfl rfl rfl rfl id
      next => contradiction
  | resume n =>
      simp only [step] at moved
      split at moved
      next =>
        split at moved
        next => contradiction
        next =>
          split at moved <;> cases Option.some.inj moved
          · exact watchLoop_timed timed n _
          · exact timed.congr rfl rfl rfl rfl (by simp)
      next => contradiction
  | expire =>
      obtain ⟨⟨quiet, waits, set_⟩, moved⟩ := Option.ite_none_right_eq_some.mp moved
      cases Option.some.inj moved
      obtain ⟨asked, spent, armed, served, _, _⟩ := timed
      constructor
      · exact fun here => absurd (waits.symm.trans (asked here).1) (by simp)
      · exact spent
      · exact armed
      · exact fun _ => by simp
      · exact fun _ _ => set_
      · exact fun here => absurd (quiet.symm.trans here) (by simp)
  | resumeTimer =>
      obtain ⟨⟨quiet, already⟩, moved⟩ := Option.ite_none_right_eq_some.mp moved
      split at moved
      next flagged =>
        cases Option.some.inj moved
        refine timerLoop_timed timed quiet rfl rfl rfl rfl already fun here => flagged ?_
        exact (timed.spent (by rw [here]; simp)).2
      next plain =>
        cases Option.some.inj moved
        have plain := not_not.mp plain
        constructor <;> dsimp only
        · intro here
          split at here
          next => contradiction
          next => exact timed.asked here
        · intro other
          refine timed.spent fun here => other ?_
          rw [here]
          rfl
        · intro here
          split at here
          next => contradiction
          next other => exact absurd here other
        · exact fun _ waits => absurd (already.symm.trans waits) (by simp)
        · exact timed.passed
        · refine fun _ => ⟨already, plain, ?_⟩
          split
          next => simp
          next other => exact other

/-- libcurl's request is on its way to the timer, in force, or served. It is called only
after the time it was set to has passed. -/
theorem timer_follows_curl (path : Reaches step {} ls s) :
    (s.stage = .asked → s.expiry.triggered = true ∧ s.nextTimeout = s.request) ∧
      (s.expiry.triggered = false → s.nextTimeout = -1 ∧ s.expiry.userFlags = 0 ∧
        s.expiry.deadline = if s.stage = .armed then due s.request else none) ∧
      (s.call = some .timer → s.expiry.triggered = true ∧ s.expiry.userFlags = 0 ∧
        s.expiry.deadline.isSome = true) := by
  have timed : s.Timed := path.invariant step_timed ⟨nofun, fun _ => ⟨rfl, rfl⟩, nofun, fun _ _ => rfl, nofun, nofun⟩
  refine ⟨timed.asked, fun waits => ?_, fun here => ?_⟩
  · have other : s.stage ≠ .asked := fun here => absurd (waits.symm.trans (timed.asked here).1) nofun
    obtain ⟨next, plain⟩ := timed.spent other
    refine ⟨next, plain, ?_⟩
    cases at_ : s.stage with
    | asked => exact absurd at_ other
    | armed => exact timed.armed at_
    | served => exact timed.served at_ waits
  · obtain ⟨already, plain, _⟩ := timed.called here
    exact ⟨already, plain, timed.passed already plain⟩

/-- The time passes as libcurl asks for another. -/
theorem timer_follows_curl_raced : ∃ s : CurlDriver, s.request = 7 ∧ s.expiry.triggered = false ∧
    s.expiry.deadline = if s.stage = .armed then due s.request else none := by
  have ran : (run step {} [.enter, .timerCb 5, .ret, .resumeTimer, .expire, .enter, .timerCb 7, .ret,
      .resumeTimer, .ret]).any (fun s => s.request == 7 && !s.expiry.triggered) = true := by decide
  obtain ⟨s, path, here⟩ := (Option.any_eq_true _ _).mp ran
  simp only [Bool.and_eq_true, beq_iff_eq, Bool.not_eq_true'] at here
  exact ⟨s, here.1, here.2, ((timer_follows_curl (run_iff_reaches.mp path)).2.1 here.2).2.2⟩

end CurlDriver

end Cotamer.Curl
