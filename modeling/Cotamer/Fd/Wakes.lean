import Cotamer.Fd.Lifetime

/-! Who waits for a descriptor. Every event that `file_event` made is triggered,
in the chain of a driver, or about to join it; a driver whose chain is not empty is
listed in the body, so it is told of the close. -/
namespace Cotamer.Fd
open Transition

/-- The event is in the thread's chain, or a call of `watch` is about to put it there. -/
def Thread.Awaits (t : Thread) (e : Nat) : Prop := e ∈ t.chain ∨ .append e ∈ t.acts

/-- Does the act tell a driver of the close? -/
def Act.notice : Act → Bool
  | .notify _ => true
  | _ => false

namespace State

variable {s s' : State} {i j : Nat} {t t' u : Thread} {rest : List Act} {a : Act} {l : Label} {e : Nat}

def Waking (s : State) : Prop :=
  ∀ e ∈ s.requested, e ∈ s.triggered ∨ ∃ t ∈ s.threads, t.Awaits e

/-- `file_event` is called with a mask that is not empty, while the descriptor is open. -/
def Watchable (s : State) : Label → Prop
  | .watch _ noMask => noMask = false ∧ s.body.isOpen = true
  | _ => True

def Heeded (s : State) (l : Label) : Prop := s.Prompt l ∧ s.Watchable l

instance : ∀ l, Decidable (s.Watchable l)
  | .watch _ noMask => inferInstanceAs (Decidable (noMask = false ∧ s.body.isOpen = true))
  | .spawn | .copy _ | .give _ _ | .drop _ | .close _ | .fire _ _ | .process _ | .act _ =>
    isTrue trivial

instance : Decidable (s.Heeded l) := inferInstanceAs (Decidable (_ ∧ _))

/-- One thread changes, and no event it waits for is forgotten. -/
theorem waking_set (waking : s.Waking) (found : s.threads[i]? = some t) (t' : Thread)
    (threads : s'.threads = (s.setThread i t').threads)
    (requested : ∀ e ∈ s'.requested, e ∈ s.requested ∨ t'.Awaits e)
    (triggered : ∀ e ∈ s.triggered, e ∈ s'.triggered)
    (kept : ∀ e, t.Awaits e → e ∈ s'.triggered ∨ t'.Awaits e) : s'.Waking := by
  have mine : t' ∈ s'.threads := by
    rw [threads]
    exact List.mem_of_getElem? (setThread_get found t')
  intro e asked
  rcases requested e asked with before | new
  · rcases waking e before with done | ⟨u, member, awaits⟩
    · exact .inl (triggered e done)
    · obtain ⟨j, at_j⟩ := List.mem_iff_getElem?.mp member
      by_cases same : j = i
      · subst same
        cases found.symm.trans at_j
        rcases kept e awaits with done | still
        · exact .inl done
        · exact .inr ⟨t', mine, still⟩
      · refine .inr ⟨u, ?_, awaits⟩
        rw [threads]
        exact List.mem_of_getElem? ((setThread_ne same t').trans at_j)
  · exact .inr ⟨t', mine, new⟩

/-- A thread that has not changed its chain, and still does what it had to do. -/
theorem waking_acts (waking : s.Waking) (found : s.threads[i]? = some t) (t' : Thread)
    (threads : s'.threads = (s.setThread i t').threads) (requested : s'.requested = s.requested)
    (triggered : s'.triggered = s.triggered) (chain : t'.chain = t.chain)
    (acts : ∀ e, .append e ∈ t.acts → .append e ∈ t'.acts) : s'.Waking := by
  apply waking_set waking found t' threads
  · rw [requested]
    exact fun e asked => .inl asked
  · rw [triggered]
    exact fun e done => done
  · rintro e (queued | member)
    · exact .inr (.inl (chain ▸ queued))
    · exact .inr (.inr (acts e member))

/-- An act of `rest` that is not the one being done. -/
theorem append_rest (acts : t.acts = a :: rest) (other : ∀ e, a ≠ .append e) :
    ∀ e, .append e ∈ t.acts → .append e ∈ rest := by
  intro e member
  rw [acts, List.mem_cons] at member
  rcases member with same | member
  · exact absurd same.symm (other e)
  · exact member

theorem waking_notifyClose (waking : s.Waking) (found : s.threads[i]? = some t) (u : Thread)
    (chain : u.chain = t.chain) (acts : ∀ e, .append e ∈ t.acts → .append e ∈ rest) :
    (s.notifyClose i u rest).Waking := by
  unfold notifyClose
  split
  · refine waking_set waking found { u with registered := false, chain := [], acts := .removeListener :: rest }
      rfl (fun e asked => .inl asked) (fun e done => List.mem_append_left _ done) ?_
    rintro e (queued | member)
    · exact .inl (List.mem_append_right _ (chain ▸ queued))
    · exact .inr (.inr (List.mem_cons_of_mem _ (acts e member)))
  · exact waking_acts waking found { u with acts := rest } rfl rfl rfl chain acts

theorem waking_migrateClose (waking : s.Waking) (d : Nat) : (s.migrateClose d).Waking := by
  unfold migrateClose
  split
  · exact waking
  · rename_i u found
    exact waking_acts waking found { u with closing := u.closing + 1 } rfl rfl rfl rfl (fun _ => id)

theorem waking_exec (waking : s.Waking) (found : s.threads[i]? = some t) (acts : t.acts = a :: rest) :
    (s.exec i t rest a).Waking := by
  cases a with
  | append e =>
      refine waking_set waking found { t with acts := rest, chain := t.chain ++ [e] } rfl
        (fun _ asked => .inl asked) (fun _ done => done) ?_
      rintro e' (queued | member)
      · exact .inr (.inl (List.mem_append_left _ queued))
      · rw [acts, List.mem_cons] at member
        rcases member with same | member
        · cases same
          exact .inr (.inl (List.mem_append_right _ (List.mem_singleton_self e)))
        · exact .inr (.inr member)
  | notify d =>
      have others := append_rest acts (by simp)
      simp only [exec]
      split
      · exact waking_notifyClose waking found t rfl others
      · exact waking_migrateClose (waking_acts waking found { t with acts := rest } rfl rfl rfl rfl others) d
  | close becauseDeref =>
      refine waking_acts waking found _ rfl rfl rfl rfl fun e member => ?_
      exact List.mem_append_right _ (append_rest acts (by simp) e member)
  | removeListener =>
      refine waking_acts waking found _ rfl rfl rfl rfl fun e member => ?_
      exact List.mem_append_right _ (append_rest acts (by simp) e member)
  | fetchSub => exact waking_acts waking found { t with acts := rest } rfl rfl rfl rfl (append_rest acts (by simp))
  | addListener => exact waking_acts waking found { t with acts := rest } rfl rfl rfl rfl (append_rest acts (by simp))
  | osClose => exact waking_acts waking found { t with acts := rest } rfl rfl rfl rfl (append_rest acts (by simp))
  | delete => exact waking_acts waking found { t with acts := rest } rfl rfl rfl rfl (append_rest acts (by simp))

/-- A call of `file_event` that registers its event. -/
theorem waking_watch (waking : s.Waking) (found : s.threads[i]? = some t) (idle : t.acts = [])
    (isOpen : s.body.isOpen = true) (moved : s.start i t (.watch i false) = some s') : s'.Waking := by
  simp only [start, Option.ite_none_right_eq_some, Option.some.injEq, isOpen] at moved
  obtain ⟨_, rfl⟩ := moved
  have asked : ∀ e ∈ s.requested ++ [s.next], e ∈ s.requested ∨ e = s.next := by
    intro e member
    simpa using member
  simp only [Bool.not_true, Bool.or_self, Bool.false_eq_true, if_false]
  split
  · refine waking_set waking found { t with acts := [.append s.next] } rfl ?_ (fun _ done => done) ?_
    · intro e member
      rcases asked e member with before | rfl
      · exact .inl before
      · exact .inr (.inr (List.mem_singleton_self _))
    · rintro e (queued | member)
      · exact .inr (.inl queued)
      · rw [idle] at member
        contradiction
  · refine waking_set waking found { t with registered := true, acts := [.addListener, .append s.next] } rfl
      ?_ (fun _ done => done) ?_
    · intro e member
      rcases asked e member with before | rfl
      · exact .inl before
      · exact .inr (.inr (by simp))
    · rintro e (queued | member)
      · exact .inr (.inl queued)
      · rw [idle] at member
        contradiction

/-- The loop takes watches off the chain and triggers them. -/
theorem waking_fire (waking : s.Waking) (found : s.threads[i]? = some t) (taken : List Nat)
    (threads : s'.threads = (s.setThread i { t with chain := t.chain.filter (· ∉ taken) }).threads)
    (requested : s'.requested = s.requested)
    (triggered : s'.triggered = s.triggered ++ t.chain.filter (· ∈ taken)) : s'.Waking := by
  refine waking_set waking found { t with chain := t.chain.filter (· ∉ taken) } threads ?_ ?_ ?_
  · rw [requested]
    exact fun e asked => .inl asked
  · rw [triggered]
    exact fun e done => List.mem_append_left _ done
  · rintro e (queued | member)
    · by_cases fired : e ∈ taken
      · rw [triggered]
        exact .inl (List.mem_append_right _ (List.mem_filter.mpr ⟨queued, by simpa using fired⟩))
      · exact .inr (.inl (List.mem_filter.mpr ⟨queued, by simpa using fired⟩))
    · exact .inr (.inr member)

theorem waking_start (waking : s.Waking) (found : s.threads[i]? = some t) (idle : t.acts = [])
    (caller : l.caller = some i) (watchable : s.Watchable l) (moved : s.start i t l = some s') :
    s'.Waking := by
  have none : ∀ {acts : List Act} e, .append e ∈ t.acts → .append e ∈ acts := by
    intro acts e member
    rw [idle] at member
    contradiction
  cases l with
  | copy _ =>
      simp only [start, Option.ite_none_right_eq_some, Option.some.injEq] at moved
      obtain ⟨_, rfl⟩ := moved
      exact waking_acts waking found { t with refs := t.refs + 1 } rfl rfl rfl rfl (fun _ => id)
  | drop _ =>
      simp only [start, Option.ite_none_right_eq_some, Option.some.injEq] at moved
      obtain ⟨_, rfl⟩ := moved
      exact waking_acts waking found _ rfl rfl rfl rfl none
  | close _ =>
      simp only [start, Option.ite_none_right_eq_some, Option.some.injEq] at moved
      obtain ⟨_, rfl⟩ := moved
      exact waking_acts waking found _ rfl rfl rfl rfl none
  | watch j noMask =>
      cases Option.some.inj caller
      obtain ⟨rfl, isOpen⟩ := watchable
      exact waking_watch waking found idle isOpen moved
  | fire _ taken =>
      cases Option.some.inj moved
      exact waking_fire waking found taken rfl rfl rfl
  | process _ =>
      simp only [start, Option.ite_none_right_eq_some, Option.some.injEq] at moved
      obtain ⟨_, rfl⟩ := moved
      exact waking_notifyClose waking found { t with closing := t.closing - 1 } rfl none
  | spawn => contradiction
  | give i j => contradiction
  | act i => contradiction

theorem waking_spawn (waking : s.Waking) : State.Waking { s with threads := s.threads ++ [{}] } := by
  intro e asked
  rcases waking e asked with done | ⟨t, member, awaits⟩
  · exact .inl done
  · exact .inr ⟨t, List.mem_append_left _ member, awaits⟩

/-- No step forgets an event that was asked for while the descriptor was open. -/
theorem step_waking (waking : s.Waking) (watchable : s.Watchable l) (moved : s.step l = some s') :
    s'.Waking := by
  have starting : (l.caller.bind fun i => s.threads[i]?.bind fun t =>
      if t.acts = [] then s.start i t l else none) = some s' → s'.Waking := by
    intro started
    obtain ⟨i, caller, rest⟩ := Option.bind_eq_some_iff.mp started
    obtain ⟨t, found, rest⟩ := Option.bind_eq_some_iff.mp rest
    obtain ⟨idle, moved⟩ := Option.ite_none_right_eq_some.mp rest
    exact waking_start waking found idle caller watchable moved
  cases l with
  | spawn =>
      cases Option.some.inj moved
      exact waking_spawn waking
  | give i j =>
      simp only [step] at moved
      split at moved
      · rename_i t u found foundj
        obtain ⟨⟨other, _, _⟩, eq⟩ := Option.ite_none_right_eq_some.mp moved
        cases Option.some.inj eq
        have gave := waking_acts waking found { t with refs := t.refs - 1 } rfl rfl rfl rfl (fun _ => id)
        exact waking_acts gave ((setThread_ne other.symm _).trans foundj) { u with refs := u.refs + 1 }
          rfl rfl rfl rfl (fun _ => id)
      · contradiction
  | act i =>
      obtain ⟨t, found, rest⟩ := Option.bind_eq_some_iff.mp moved
      split at rest
      · contradiction
      · rename_i a acts eq
        cases Option.some.inj rest
        exact waking_exec waking found eq
  | copy i => exact starting moved
  | drop i => exact starting moved
  | close i => exact starting moved
  | watch i noMask => exact starting moved
  | fire i taken => exact starting moved
  | process i => exact starting moved

theorem reached_waking (path : Reaches step {} ls s) (heeded : Meets step Heeded {} ls) :
    s.Sound true ∧ s.Waking := by
  apply path.guarded (P := fun s => s.Sound true ∧ s.Waking) ?_ heeded
  · exact ⟨sound_initial, fun e asked => by contradiction⟩
  · rintro s l s' ⟨sound, waking⟩ ⟨prompt, watchable⟩ moved
    exact ⟨step_sound sound prompt (.inl rfl) moved, step_waking waking watchable moved⟩

/-- Once the descriptor is closed, a driver that waits on it has been told. -/
theorem chained_told (sound : s.Sound leaks) (found : s.threads[i]? = some t)
    (closed : s.body.isOpen = false) (queued : t.chain ≠ []) :
    0 < t.closing + s.pending (.notify i) := by
  have placed := sound.placed i t found
  have registered := placed.chained (.inl queued)
  have noAdd : t.acts.count .addListener = 0 :=
    List.count_eq_zero.mpr fun member => queued (placed.fresh member)
  have balance := placed.balance
  rw [noAdd, registered, Bool.toNat_true] at balance
  exact placed.told closed registered (List.count_pos_iff.mp (by omega))

/-- No notice of the close is still to be sent or processed. -/
def Informed (s : State) : Prop := ∀ t ∈ s.threads, t.closing = 0 ∧ ∀ a ∈ t.acts, a.notice = false

instance : Decidable s.Informed := inferInstanceAs (Decidable (∀ t ∈ s.threads, _))

/-- Once the descriptor is closed and every driver has processed its notices, every
event that `file_event` returned is triggered. -/
theorem closed_wakes_waiters (path : Reaches step {} ls s) (heeded : Meets step Heeded {} ls)
    (closed : s.body.isOpen = false)
    (informed : s.Informed) :
    ∀ e ∈ s.requested, e ∈ s.triggered ∨ ∃ t ∈ s.threads, .append e ∈ t.acts := by
  obtain ⟨sound, waking⟩ := reached_waking path heeded
  intro e asked
  rcases waking e asked with done | ⟨t, member, queued | coming⟩
  · exact .inl done
  · obtain ⟨i, found⟩ := List.mem_iff_getElem?.mp member
    have told := chained_told sound found closed (List.ne_nil_of_mem queued)
    have none : s.pending (.notify i) = 0 := by
      rw [pending, Totals.total_eq_zero]
      intro u here
      rw [List.count_eq_zero]
      exact fun pending => Bool.noConfusion ((informed u here).2 _ pending)
    rw [(informed t member).1, none] at told
    exact absurd told (Nat.lt_irrefl 0)
  · exact .inr ⟨t, member, coming⟩

/-- A driver waits on a descriptor that another thread closes. -/
theorem closed_wakes_waiters_told :
    let ls : List Label := [.spawn, .copy 0, .give 0 1, .watch 1 false, .act 1, .act 1, .close 0, .act 0,
      .act 0, .process 1]
    ∃ s, Reaches step {} ls s ∧ s.requested = [0] ∧
      ∀ e ∈ s.requested, e ∈ s.triggered ∨ ∃ t ∈ s.threads, .append e ∈ t.acts := by
  intro ls
  have path : Reaches step {} ls _ := run_iff_reaches.mp rfl
  exact ⟨_, path, by decide, closed_wakes_waiters path (by decide) (by decide) (by decide)⟩

/-- The event of a call made after the close is triggered by nobody. -/
theorem watch_after_close_sleeps :
    ∃ s, Reaches step {} [.close 0, .act 0, .act 0, .watch 0 false] s ∧ s.body.isOpen = false ∧
      (∀ t ∈ s.threads, t.closing = 0 ∧ t.acts = []) ∧ s.requested = [0] ∧ s.triggered = [] :=
  ⟨_, run_iff_reaches.mp rfl, by decide, by decide, by decide, by decide⟩

end State
end Cotamer.Fd
