import Cotamer.Fd.Notified
import Cotamer.Fd.Wellformed
import Mathlib.Data.Set.Card

/-! The bodies of the records list the driver among those that have them. -/
namespace Cotamer.Fd.Table
open Transition
open Watches (FdEvent)

section balanced

variable {body : Nat → Option Nat} {listed listed' : List Nat} {u b : Nat}

/-- A body lists the driver at least once for every record that it has. -/
structure Balanced (body : Nat → Option Nat) (listed : List Nat) : Prop where
  finite : ∀ b, {u | body u = some b}.Finite
  count : ∀ b, {u | body u = some b}.ncard ≤ listed.count b

/-- A record loses its body. -/
theorem Balanced.vacate (balanced : Balanced body listed) (had : body u = some b)
    (lists : listed' = listed ∨ listed' = listed.erase b) : Balanced (Function.update body u none) listed' := by
  have less : ∀ c, {u' | Function.update body u none u' = some c} = {u' | body u' = some c} \ {u} := by
    intro c
    ext u'
    by_cases same : u' = u
    · subst same
      simp
    · simp [same]
  refine ⟨fun c => ?_, fun c => ?_⟩
  · rw [less]
    exact (balanced.finite c).sdiff
  · have before := balanced.count c
    rw [less]
    by_cases same : c = b
    · subst same
      have member : u ∈ {u' | body u' = some c} := had
      rw [Set.ncard_sdiff_singleton_of_mem member]
      rcases lists with rfl | rfl
      · omega
      · rw [List.count_erase_self]
        omega
    · have absent : u ∉ {u' | body u' = some c} := fun has => same (Option.some.inj (had.symm.trans has)).symm
      rw [Set.sdiff_singleton_eq_self absent]
      rcases lists with rfl | rfl
      · exact before
      · rw [List.count_erase_of_ne same]
        exact before

/-- A record gets a body. -/
theorem Balanced.occupy (balanced : Balanced body listed) (vacant : body u = none) :
    Balanced (Function.update body u (some b)) (b :: listed) := by
  have mine : {u' | Function.update body u (some b) u' = some b} = insert u {u' | body u' = some b} := by
    ext u'
    by_cases same : u' = u
    · subst same
      simp
    · simp [same]
  have others : ∀ c, c ≠ b → {u' | Function.update body u (some b) u' = some c} = {u' | body u' = some c} := by
    intro c other
    ext u'
    by_cases same : u' = u
    · subst same
      simp [vacant, other.symm]
    · simp [same]
  refine ⟨fun c => ?_, fun c => ?_⟩
  · by_cases same : c = b
    · subst same
      rw [mine]
      exact (balanced.finite c).insert u
    · rw [others c same]
      exact balanced.finite c
  · have before := balanced.count c
    by_cases same : c = b
    · subst same
      have absent : u ∉ {u' | body u' = some c} := fun has => nomatch vacant.symm.trans has
      rw [mine, Set.ncard_insert_of_notMem absent (balanced.finite c), List.count_cons_self]
      exact Nat.succ_le_succ before
    · rw [others c same, List.count_cons_of_ne (Ne.symm same)]
      exact before

end balanced

namespace State

variable {s s' : State} {lay lay' : Layout} {ufd b other : Nat} {mask : FdEvent} {l : Label}

def bodyAt (s : State) (ufd : Nat) : Option Nat := (s.fds.fdr ufd).body

theorem bodyAt_view (s : State) (lay : Layout) (ufd : Nat) : s.bodyAt ufd = ((s.view lay).fdrs ufd).body := rfl

/-- The record of the watch has the body afterwards. -/
theorem watch_bodies {v v' : Watches.State} (some : mask ≠ 0) (moved : v.watch ufd b mask = Option.some v')
    (fits : ∀ other, (v.fdrs ufd).body = Option.some other → other = b) (u : Nat) :
    (v'.fdrs u).body = if u = ufd then Option.some b else (v.fdrs u).body := by
  have installed : v' = v.install ufd b mask := by
    rw [Watches.State.watch, if_neg some] at moved
    split at moved
    · exact (Option.some.inj moved).symm
    · rename_i other body
      rw [if_pos (fits other body)] at moved
      exact (Option.some.inj moved).symm
  rw [installed, (Watches.State.install_edited v ufd b mask).fdrs]
  by_cases same : u = ufd
  · subst same
    rw [Function.update_self, if_pos rfl]
  · rw [Function.update_of_ne same, if_neg same]

theorem watch_balanced {fd : Int} (laid : s.Laid lay) (balanced : Balanced s.bodyAt s.listed) (number : fd < 2 ^ 31)
    (moved : s.watch fd mask b = some s') : Balanced s'.bodyAt s'.listed := by
  by_cases idle : fd < 0 ∨ mask = 0
  · rw [watch_idle idle] at moved
    cases Option.some.inj moved
    exact balanced
  · have small : fd.toNat < 2 ^ 31 := by omega
    have noMask : mask ≠ 0 := fun none => idle (.inr none)
    by_cases fits : ∀ other, (s.fds.fdr fd.toNat).body = some other → other = b
    · obtain ⟨s₁, lay', runs, _, listed, _, lists⟩ := watch_fits laid small idle fits
      cases Option.some.inj (runs.symm.trans moved)
      have bodies : s'.bodyAt = Function.update s.bodyAt fd.toNat (some b) := by
        funext u
        rw [bodyAt_view s' lay', watch_bodies noMask listed fits, Function.update_apply]
        rfl
      rw [bodies, lists]
      split
      · rename_i vacant
        exact balanced.occupy vacant
      · rename_i occupied
        obtain ⟨other, body⟩ := Option.ne_none_iff_exists'.mp occupied
        obtain rfl := fits other body
        have same : Function.update s.bodyAt fd.toNat (some other) = s.bodyAt := by
          rw [← body]
          exact Function.update_eq_self fd.toNat s.bodyAt
        rw [same]
        exact balanced
    · simp only [not_forall] at fits
      obtain ⟨other, body, differs⟩ := fits
      cases still : s.isOpen other with
      | true =>
          rw [watch_undefined idle body differs still] at moved
          contradiction
      | false =>
          obtain ⟨s₁, lay', runs, _, _, _, lists, _, _, record⟩ := watch_displaces laid small idle body differs still
          cases Option.some.inj (runs.symm.trans moved)
          have bodies : s'.bodyAt = Function.update (Function.update s.bodyAt fd.toNat none) fd.toNat (some b) := by
            funext u
            have mine := congrArg Watches.FdRec.body (congrFun record u)
            rw [Function.update_idem]
            refine mine.trans ?_
            by_cases same : u = fd.toNat
            · subst same
              rw [Function.update_self, Function.update_self]
            · rw [Function.update_of_ne same, Function.update_of_ne same]
              rfl
          rw [bodies, lists]
          exact (balanced.vacate body (.inr rfl)).occupy (Function.update_self ..)

theorem release_balanced (balanced : Balanced s.bodyAt s.listed) (b : Nat) :
    Balanced (s.release b).bodyAt (s.release b).listed := by
  rw [release_eq]
  exact balanced

theorem step_balanced (laid : s.Laid lay) (balanced : Balanced s.bodyAt s.listed) (moved : s.step l = some s') :
    Balanced s'.bodyAt s'.listed := by
  cases l with
  | openFile fd =>
      obtain ⟨_, moved⟩ := Option.ite_none_left_eq_some.mp moved
      cases Option.some.inj moved
      exact balanced
  | closeFile fd =>
      cases Option.some.inj moved
      exact balanced
  | create fd =>
      cases Option.some.inj moved
      exact balanced
  | close b =>
      obtain ⟨body, _, rfl⟩ := Option.map_eq_some_iff.mp moved
      split
      · apply release_balanced
        exact balanced
      · exact balanced
  | listen b =>
      obtain ⟨_, moved⟩ := Option.ite_none_right_eq_some.mp moved
      cases Option.some.inj moved
      exact balanced
  | unlisten b =>
      obtain ⟨_, moved⟩ := Option.ite_none_right_eq_some.mp moved
      cases Option.some.inj moved
      apply release_balanced
      exact balanced
  | watch fd mask b =>
      obtain ⟨⟨number, _⟩, moved⟩ := Option.ite_none_right_eq_some.mp moved
      exact watch_balanced laid balanced number moved
  | notifyClose fd =>
      obtain ⟨s₁, lay', runs, _, _, effect⟩ := view_notifyClose laid fd
      cases Option.some.inj (runs.symm.trans moved)
      rcases effect with ⟨rfl, rfl⟩ | ⟨b, shut⟩
      · exact balanced
      · have bodies : s'.bodyAt = Function.update s.bodyAt fd none := by
          funext u
          refine (congrArg Watches.FdRec.body (congrFun shut.record u)).trans ?_
          by_cases same : u = fd
          · subst same
            rw [Function.update_self, Function.update_self]
          · rw [Function.update_of_ne same, Function.update_of_ne same]
            rfl
        rw [bodies]
        exact balanced.vacate shut.body shut.listed
  | take fd mask epoch =>
      obtain ⟨whead, fds, lay', runs, _, listed, _⟩ := view_takeWatchList laid fd mask epoch
      rw [step, runs] at moved
      cases Option.some.inj moved
      have bodies : ∀ u, (fds.fdr u).body = s.bodyAt u := by
        intro u
        have fdrs := congrFun (congrArg Watches.State.fdrs listed) u
        exact (congrArg Watches.FdRec.body fdrs).symm.trans
          ((Watches.takeWatchList_record (s.view lay) fd mask epoch).2 u).1
      exact (funext bodies : bodyAt { s with fds, detached := s.detached ++ [whead] } = s.bodyAt) ▸ balanced
  | pop i =>
      have popped : s.pop i = some s' := moved
      obtain ⟨wix, found, rest⟩ := Option.bind_eq_some_iff.mp popped
      obtain ⟨more, rest⟩ := Option.ite_none_left_eq_some.mp rest
      have lists : s'.listed = s.listed := by
        split at rest
        · cases Option.some.inj rest
          rfl
        · contradiction
      obtain ⟨e, s₁, lay', runs, _, _, listed⟩ := view_pop laid found more
      cases Option.some.inj (runs.symm.trans popped)
      have bodies : s'.bodyAt = s.bodyAt := by
        funext u
        exact congrArg Watches.FdRec.body (congrFun (congrArg Watches.State.fdrs listed) u)
      rw [bodies, lists]
      exact balanced
  | empty e =>
      obtain ⟨_, moved⟩ := Option.ite_none_right_eq_some.mp moved
      cases Option.some.inj moved
      exact balanced
  | update =>
      obtain ⟨⟨fdu, fds⟩, popped, rfl⟩ := Option.map_eq_some_iff.mp moved
      cases queue : lay.queue with
      | nil =>
          rw [popUpdate_none laid queue] at popped
          contradiction
      | cons ufd rest =>
          obtain ⟨fdu', fds', runs, _, listed⟩ := view_popUpdate laid queue
          cases Option.some.inj (runs.symm.trans popped)
          have bodies : bodyAt { s with fds, epoll := (s.epoll.applyFdUpdate fdu).1 } = s.bodyAt :=
            funext fun u => Watches.popUpdate_body listed u
          rw [bodies]
          exact balanced

theorem initial_balanced : Balanced (bodyAt {}) [] := by
  have none : ∀ b, {u | bodyAt {} u = some b} = ∅ := by
    intro b
    ext u
    have outside : FdEventSet.fdr {} u = {} := FdEventSet.fdr_outside (Nat.zero_le u)
    simp [bodyAt, outside]
  exact ⟨fun b => none b ▸ Set.finite_empty, fun b => by rw [none b]; simp⟩

/-- The body of a record lists the driver. -/
theorem listed_body (balanced : Balanced s.bodyAt s.listed) (body : (s.fds.fdr ufd).body = some other) :
    other ∈ s.listed := by
  have positive : 0 < {u | s.bodyAt u = some other}.ncard :=
    (Set.ncard_pos (balanced.finite other)).mpr ⟨ufd, body⟩
  exact List.count_pos_iff.mp (Nat.lt_of_lt_of_le positive (balanced.count other))

end State
end Cotamer.Fd.Table
