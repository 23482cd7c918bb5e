import Cotamer.Fd.Formed
import Cotamer.Fd.Registered

/-! Every run of the watch table keeps its lists, and does to the watches what
`Fd.Watches` says: a list for each descriptor, and a list of updates. -/
namespace Cotamer.Fd.Table
open Links Transition
open Watches (FdEvent Epoch FdUpdate Watch)

namespace State

def Laid (s : State) (lay : Layout) : Prop := Lays s.fds s.detached s.next lay

/-- The state with lists for chains. -/
def view (s : State) (lay : Layout) : Watches.State where
  bodies := s.bodies
  fdrs := recordOf s.fds lay
  updates := lay.queue
  emptied := s.emptied
  next := s.next

/-- The steps of the table on lists. The kernel is left out, and so are lists being drained:
an event that is popped from one is some event that triggers. -/
def listStep (s : Watches.State) : Label → Option Watches.State
  | .openFile _ | .closeFile _ | .listen _ | .unlisten _ => some s
  | .create fd => some { s with bodies := s.bodies ++ [{ baseFd := fd }] }
  | .close b =>
    s.bodies[b]?.map fun body =>
      if body.isOpen then { s with bodies := s.bodies.set b { body with isOpen := false } } else s
  | .watch fd mask b =>
    if fd < 2 ^ 31 ∧ b < s.bodies.length then
      if fd < 0 then some { s with next := s.next + 1 } else s.watch fd.toNat b mask
    else none
  | .notifyClose fd => some (s.fdClose fd).1
  | .take fd mask epoch => some { s.takeWatchList fd mask epoch with detached := [] }
  | .pop _ => none
  | .empty e => if e < s.next then some { s with emptied := s.emptied ++ [e] } else none
  | .update => s.popUpdate.map Prod.snd

/-- The step on lists that a step of the table makes. -/
inductive Listed : Label → Label → Prop
  | same (l : Label) : Listed l l
  | popped (i e : Nat) : Listed (.pop i) (.empty e)

variable {s s' : State} {lay lay' : Layout} {ufd b : Nat} {mask : FdEvent}

/-! Numbers that bodies close. -/

theorem release_eq (s : State) (b : Nat) :
    s.release b = { s with released := (s.release b).released, epoll := (s.release b).epoll } := by
  unfold release
  split <;> rfl

theorem release_epoll (same : s.closable b = s'.closable b) (epoll : s.epoll = s'.epoll) :
    (s.release b).epoll = (s'.release b).epoll := by
  unfold release
  rw [same]
  split
  · exact epoll
  · exact congrArg (Epoll.closeFile · _) epoll

theorem release_shuts (s : State) (b : Nat) : s.epoll.Shuts (s.release b).epoll := by
  unfold release
  split
  · exact .refl s.epoll
  · rename_i fd _
    exact .inr ⟨fd, rfl⟩

theorem release_view (s : State) (b : Nat) (lay : Layout) : (s.release b).view lay = s.view lay := by
  rw [release_eq]
  rfl

theorem release_laid (laid : s.Laid lay) (b : Nat) : (s.release b).Laid lay := by
  rw [release_eq]
  exact laid

theorem view_queue (lay : Layout) (ufd : Nat) (v : Watches.State) (queue : v.updates = lay.queue) :
    v.queue ufd = { v with updates := (lay.enqueue ufd).queue } := by
  unfold Watches.State.queue Layout.enqueue
  rw [queue]
  split
  · rw [← queue]
  · rfl

/-- What `fd_close` does to the lists. -/
theorem view_fdClose (laid : s.Laid lay) (body : (s.fds.fdr ufd).body = some b) (shut : s.isOpen b = false) :
    ∃ t lay', s.fds.fdClose s.isOpen ufd =
        some (t, (recordOf s.fds lay ufd).watches.map Watch.ev, some (b, (s.fds.fdr ufd).epoch)) ∧
      Lays.Closed s.fds t s.detached s.next lay lay' ufd ∧
      (s.view lay).fdClose ufd =
        (view { s with
          fds := t
          emptied := s.emptied ++ (recordOf s.fds lay ufd).watches.map Watch.ev } lay',
          some (b, (s.fds.fdr ufd).epoch)) := by
  obtain ⟨t, lay', runs, closed⟩ := Lays.fdClose_closes laid body shut
  refine ⟨t, lay', runs, closed, ?_⟩
  have recorded : ((s.view lay).fdrs ufd).body = some b := body
  have shut' : (s.view lay).isOpen b = false := shut
  have prior : (s.fds.fdr ufd).epoch + 1 - 1 = (s.fds.fdr ufd).epoch := by
    rw [BitVec.add_sub_cancel]
  simp only [Watches.State.fdClose, recorded, shut', Bool.false_eq_true, if_false]
  have queued := view_queue lay ufd ({ (s.view lay).setRec ufd
    { epoch := ((s.view lay).fdrs ufd).epoch + 1 } with
      emptied := (s.view lay).emptied ++ ((s.view lay).fdrs ufd).watches.map Watch.ev }) rfl
  rw [queued]
  simp only [view, Watches.State.setRec, closed.queue, Layout.enqueue]
  refine Prod.ext ?_ ?_
  · simp only [closed.record]
    rfl
  · simp only [recordOf, prior]

/-- A watch joins the record of its body. -/
theorem joins {t : FdEventSet} {heads : List Nat} {next : Nat} (lays : Lays t heads next lay)
    (inside : ufd < t.fdrs.length) (mask : FdEvent) : ∃ lay',
      Lays ((t.queue ufd).append ufd mask next) heads (next + 1) lay' ∧
      lay'.queue = (lay.enqueue ufd).queue ∧
      (∀ i ∈ lay.held .free, i ∈ lay'.held .free ∨ i ∈ lay'.held (.chain ufd)) ∧
      recordOf ((t.queue ufd).append ufd mask next) lay' = Function.update (recordOf t lay) ufd
        { recordOf t lay ufd with watches := (recordOf t lay ufd).watches ++ [{ ev := next, mask }] } := by
  have inside' : ufd < (t.queue ufd).fdrs.length := Nat.lt_of_lt_of_eq inside (Lays.queue_length t ufd).symm
  obtain ⟨lay', lays', queue, kept, record⟩ := (lays.enqueue inside).append inside' mask
  rw [Lays.enqueue_record] at record
  exact ⟨lay', lays', queue, kept, record⟩

/-- The state when a new event watches the record. -/
def joined (s : State) (ufd : Nat) (mask : FdEvent) : State :=
  { s with fds := (s.fds.queue ufd).append ufd mask s.next, next := s.next + 1 }

@[simp]
theorem joined_epoll (s : State) (ufd : Nat) (mask : FdEvent) : (s.joined ufd mask).epoll = s.epoll := rfl

@[simp]
theorem joined_listed (s : State) (ufd : Nat) (mask : FdEvent) : (s.joined ufd mask).listed = s.listed := rfl

@[simp]
theorem joined_emptied (s : State) (ufd : Nat) (mask : FdEvent) : (s.joined ufd mask).emptied = s.emptied := rfl

@[simp]
theorem setBody_emptied (s : State) (ufd b : Nat) : (s.setBody ufd b).emptied = s.emptied := rfl

@[simp]
theorem setBody_epoll (s : State) (ufd b : Nat) : (s.setBody ufd b).epoll = s.epoll := rfl

@[simp]
theorem setBody_listed (s : State) (ufd b : Nat) : (s.setBody ufd b).listed = b :: s.listed := rfl

theorem view_joined (laid : s.Laid lay) (body : (s.fds.fdr ufd).body = some b) (mask : FdEvent) : ∃ lay',
    (s.joined ufd mask).Laid lay' ∧ (s.view lay).install ufd b mask = (s.joined ufd mask).view lay' ∧
      (∀ i ∈ lay.held .free, i ∈ lay'.held .free ∨ i ∈ lay'.held (.chain ufd)) ∧
      recordOf (s.joined ufd mask).fds lay' = Function.update (recordOf s.fds lay) ufd { recordOf s.fds lay ufd with
        watches := (recordOf s.fds lay ufd).watches ++ [{ ev := s.next, mask }] } := by
  obtain ⟨lay', lays', queue, kept, record⟩ := joins laid (Lays.registered body) mask
  refine ⟨lay', lays', ?_, kept, record⟩
  have queued := view_queue lay ufd ((s.view lay).setRec ufd { (s.view lay).fdrs ufd with
    body := b, watches := ((s.view lay).fdrs ufd).watches ++ [{ ev := s.next, mask }] }) rfl
  have same : (recordOf s.fds lay ufd).body = some b := body
  have fdrs : Function.update (recordOf s.fds lay) ufd { recordOf s.fds lay ufd with
      body := b, watches := (recordOf s.fds lay ufd).watches ++ [{ ev := s.next, mask }] } =
      recordOf (s.joined ufd mask).fds lay' := by
    rw [← same]
    exact record.symm
  simp only [Watches.State.install]
  refine (congrArg (fun v : Watches.State => { v with next := (s.view lay).next + 1 }) queued).trans ?_
  simp only [view, Watches.State.setRec, fdrs, queue]
  rfl

theorem install_body (v : Watches.State) (ufd b : Nat) (mask : FdEvent) :
    (v.setRec ufd { v.fdrs ufd with body := b }).install ufd b mask = v.install ufd b mask := by
  simp [Watches.State.install, Watches.State.setRec]

/-- The record gets a body. -/
theorem view_setBody (laid : s.Laid lay) (inside : ufd < s.fds.fdrs.length) (b : Nat) :
    (s.setBody ufd b).Laid lay ∧ ((s.setBody ufd b).fds.fdr ufd).body = some b ∧
      (s.setBody ufd b).view lay = (s.view lay).setRec ufd { (s.view lay).fdrs ufd with body := b } := by
  refine ⟨laid.setFdr rfl rfl rfl, ?_, ?_⟩
  · exact congrArg FdRec.body (FdEventSet.fdr_setFdr_self inside)
  · simp only [view, Watches.State.setRec, setBody, Lays.setFdr_record inside]
    rfl

theorem view_ensure (laid : s.Laid lay) (number : ufd < 2 ^ 31) :
    Laid { s with fds := s.fds.ensure ufd } lay ∧ ufd < (s.fds.ensure ufd).fdrs.length ∧
      view { s with fds := s.fds.ensure ufd } lay = s.view lay := by
  obtain ⟨lays, inside, record⟩ := laid.ensure number
  refine ⟨lays, inside, ?_⟩
  simp only [view, record]

/-! `watch`. -/

section watch

variable {fd : Int}

theorem watch_idle (idle : fd < 0 ∨ mask = 0) : s.watch fd mask b = some { s with next := s.next + 1 } :=
  if_pos idle

theorem watch_busy (busy : ¬(fd < 0 ∨ mask = 0)) : s.watch fd mask b =
    (register { s with fds := s.fds.ensure fd.toNat } fd.toNat b).map fun s => s.joined fd.toNat mask :=
  if_neg busy

theorem register_free (free : (s.fds.fdr ufd).body = none) : s.register ufd b = some (s.setBody ufd b) := by
  simp only [register, free]

theorem register_own (own : (s.fds.fdr ufd).body = some b) : s.register ufd b = some s := by
  simp only [register, own, if_true]

theorem ensured_fdr (s : State) (ufd : Nat) : (s.fds.ensure ufd).fdr ufd = s.fds.fdr ufd := Lays.ensure_fdr ..

/-- The record has no body, or the body that asks. -/
theorem watch_fits (laid : s.Laid lay) (number : fd.toNat < 2 ^ 31) (busy : ¬(fd < 0 ∨ mask = 0))
    (fits : ∀ other, (s.fds.fdr fd.toNat).body = some other → other = b) : ∃ s' lay',
      s.watch fd mask b = some s' ∧ s'.Laid lay' ∧
        (s.view lay).watch fd.toNat b mask = some (s'.view lay') ∧
        s'.epoll = s.epoll ∧
        s'.listed = if (s.fds.fdr fd.toNat).body = none then b :: s.listed else s.listed := by
  obtain ⟨laid₁, inside, view₁⟩ := view_ensure laid number
  have fdr := ensured_fdr s fd.toNat
  have noMask : mask ≠ 0 := fun none => busy (.inr none)
  rw [watch_busy busy, Watches.State.watch, if_neg noMask]
  cases body : (s.fds.fdr fd.toNat).body with
  | none =>
      obtain ⟨laid₂, body₂, view₂⟩ := view_setBody laid₁ inside b
      obtain ⟨lay', laid', installed, _⟩ := view_joined laid₂ body₂ mask
      have recorded : ((s.view lay).fdrs fd.toNat).body = none := body
      rw [register_free (fdr ▸ body), if_pos rfl]
      refine ⟨_, lay', Option.map_some .., laid', ?_, ?_, ?_⟩
      · rw [recorded]
        simp only
        rw [← installed, view₂, install_body, view₁]
      · simp only [joined_epoll, setBody_epoll]
      · simp only [joined_listed, setBody_listed]
  | some other =>
      obtain rfl := fits other body
      obtain ⟨lay', laid', installed, _⟩ := view_joined laid₁ (fdr ▸ body) mask
      have recorded : ((s.view lay).fdrs fd.toNat).body = some other := body
      rw [register_own (fdr ▸ body), if_neg nofun]
      refine ⟨_, lay', Option.map_some .., laid', ?_, ?_, ?_⟩
      · rw [recorded]
        simp only [if_true]
        rw [← installed, view₁]
      · simp only [joined_epoll]
      · simp only [joined_listed]

/-- The record has another body, which is closed. -/
theorem watch_displaces {other : Nat} (laid : s.Laid lay) (number : fd.toNat < 2 ^ 31)
    (busy : ¬(fd < 0 ∨ mask = 0)) (body : (s.fds.fdr fd.toNat).body = some other) (differs : other ≠ b)
    (shut : s.isOpen other = false) : ∃ s' lay',
      s.watch fd mask b = some s' ∧ s'.Laid lay' ∧
        (s.view lay).watch fd.toNat b mask = some (s'.view lay') ∧
        s'.emptied = s.emptied ++ (recordOf s.fds lay fd.toNat).watches.map Watch.ev ∧
        s'.listed = b :: s.listed.erase other ∧ s'.epoll = (s.removeListener other).epoll ∧
        (∀ i ∈ lay.held (.chain fd.toNat), i ∈ lay'.held .free ∨ i ∈ lay'.held (.chain fd.toNat)) ∧
        recordOf s'.fds lay' = Function.update (recordOf s.fds lay) fd.toNat
          { body := b, epoch := (s.fds.fdr fd.toNat).epoch + 1, watches := [{ ev := s.next, mask }] } := by
  obtain ⟨laid₁, inside, view₁⟩ := view_ensure laid number
  have fdr := ensured_fdr s fd.toNat
  have noMask : mask ≠ 0 := fun none => busy (.inr none)
  obtain ⟨t, lay₂, runs, closed, closes⟩ := view_fdClose laid₁ (by rw [fdr]; exact body) shut
  have record₁ : recordOf (s.fds.ensure fd.toNat) lay = recordOf s.fds lay :=
    congrArg Watches.State.fdrs view₁
  let s₁ : State :=
    { s with
      fds := t
      emptied := s.emptied ++ (recordOf s.fds lay fd.toNat).watches.map Watch.ev
      listed := s.listed.erase other }
  let s₂ := s₁.release other
  have same₂ : s₂ = { s₁ with released := s₂.released, epoll := s₂.epoll } := release_eq s₁ other
  have fds₂ : s₂.fds = t := congrArg State.fds same₂
  have epoll₂ : s₂.epoll = (s.removeListener other).epoll := release_epoll rfl rfl
  have laid₂ : s₂.Laid lay₂ := release_laid (s := s₁) closed.lays other
  obtain ⟨laid₃, body₃, view₃⟩ := view_setBody laid₂
    (fds₂ ▸ Nat.lt_of_lt_of_eq inside closed.length.symm) b
  obtain ⟨lay', laid', installed, kept, record⟩ := view_joined laid₃ body₃ mask
  have registers : State.register { s with fds := s.fds.ensure fd.toNat } fd.toNat b = some (s₂.setBody fd.toNat b) := by
    have same : State.isOpen { s with fds := s.fds.ensure fd.toNat } = s.isOpen := rfl
    simp only [register]
    rw [fdr, body]
    simp only [if_neg differs]
    rw [runs, record₁]
    rfl
  have recorded : ((s.view lay).fdrs fd.toNat).body = some other := body
  refine ⟨(s₂.setBody fd.toNat b).joined fd.toNat mask, lay', ?_, laid', ?_, ?_, ?_, ?_, ?_, ?_⟩
  · rw [watch_busy busy, registers, Option.map_some]
  · rw [Watches.State.watch, if_neg noMask, recorded]
    simp only [if_neg differs]
    rw [← view₁, closes]
    simp only
    rw [← installed, view₃, install_body, release_view]
    simp only [view, s₁, record₁]
  · rw [joined_emptied, setBody_emptied]
    exact congrArg State.emptied same₂
  · rw [joined_listed, setBody_listed]
    exact congrArg (fun s : State => b :: s.listed) same₂
  · rw [joined_epoll, setBody_epoll, epoll₂]
  · exact fun i member => kept i (closed.freed i member)
  · have record₃ : recordOf (s₂.setBody fd.toNat b).fds lay₂ = Function.update (recordOf t lay₂) fd.toNat
        { recordOf t lay₂ fd.toNat with body := b } := fds₂ ▸ congrArg Watches.State.fdrs view₃
    have next₂ := congrArg State.next same₂
    rw [record, record₃, closed.record, record₁, show (s₂.setBody fd.toNat b).next = s.next from next₂]
    simp only [Function.update_idem, Function.update_self, fdr, List.nil_append]

/-- The record has another body, which is open. -/
theorem watch_undefined {other : Nat} (busy : ¬(fd < 0 ∨ mask = 0))
    (body : (s.fds.fdr fd.toNat).body = some other) (differs : other ≠ b) (still : s.isOpen other = true) :
    s.watch fd mask b = none := by
  have fdr := ensured_fdr s fd.toNat
  have keeps : (s.fds.ensure fd.toNat).fdClose s.isOpen fd.toNat = some (s.fds.ensure fd.toNat, [], none) := by
    apply Lays.fdClose_keeps
    intro b' body'
    rw [fdr, body] at body'
    rw [← Option.some.inj body']
    exact still
  rw [watch, if_neg busy]
  simp only [register]
  rw [fdr, body]
  simp only [if_neg differs]
  have same : State.isOpen { s with fds := s.fds.ensure fd.toNat } = s.isOpen := rfl
  rw [same, keeps]
  rfl

end watch

/-! The other functions. -/

/-- What `notify_close` does to a record. An update that fails leaves the driver with the body. -/
structure Shut (s s' : State) (lay lay' : Layout) (fd b : Nat) : Prop where
  body : (s.fds.fdr fd).body = some b
  listed : s'.listed = s.listed ∨ s'.listed = s.listed.erase b
  record : recordOf s'.fds lay' = Function.update (recordOf s.fds lay) fd { epoch := (s.fds.fdr fd).epoch + 1 }
  epoll : (s.epoll.applyFdUpdate { fd, mask := 0, epoch := (s.fds.fdr fd).epoch }).1.Shuts s'.epoll

/-- The record of an open body, or of none, stays. -/
theorem notifyClose_keeps (lay : Layout) {fd : Nat}
    (unused : ∀ b, (s.fds.fdr fd).body = some b → s.isOpen b = true) :
    s.notifyClose fd = some s ∧ ((s.view lay).fdClose fd).1 = s.view lay := by
  constructor
  · rw [notifyClose, Lays.fdClose_keeps unused]
    exact congrArg some (congrArg (fun emptied => { s with emptied }) (List.append_nil s.emptied))
  · simp only [Watches.State.fdClose]
    split
    · rfl
    · rename_i b body
      rw [if_pos (show (s.view lay).isOpen b = true from unused b body)]

theorem view_notifyClose (laid : s.Laid lay) (fd : Nat) : ∃ s' lay',
    s.notifyClose fd = some s' ∧ s'.Laid lay' ∧ ((s.view lay).fdClose fd).1 = s'.view lay' ∧
      (s' = s ∧ lay' = lay ∨ ∃ b, Shut s s' lay lay' fd b) := by
  cases body : (s.fds.fdr fd).body with
  | none =>
      obtain ⟨runs, listed⟩ := notifyClose_keeps lay fun b same => by cases body.symm.trans same
      exact ⟨s, lay, runs, laid, listed, .inl ⟨rfl, rfl⟩⟩
  | some b =>
      cases still : s.isOpen b with
      | true =>
          obtain ⟨runs, listed⟩ := notifyClose_keeps lay fun b' same => by
            rw [← Option.some.inj (body.symm.trans same)]
            exact still
          exact ⟨s, lay, runs, laid, listed, .inl ⟨rfl, rfl⟩⟩
      | false =>
          obtain ⟨t, lay', runs, closed, closes⟩ := view_fdClose laid body still
          let shut : State :=
            { s with fds := t, emptied := s.emptied ++ (recordOf s.fds lay fd).watches.map Watch.ev }
          have moved : ∃ epoll returns, s.epoll.applyFdUpdate { fd, mask := 0, epoch := (s.fds.fdr fd).epoch } =
              (epoll, returns) := ⟨_, _, rfl⟩
          obtain ⟨epoll, returns, applied⟩ := moved
          let told : State := { shut with epoll }
          have laid' : told.Laid lay' := closed.lays
          have listed : ((s.view lay).fdClose fd).1 = told.view lay' := congrArg Prod.fst closes
          cases returns with
          | false =>
              refine ⟨told, lay', ?_, laid', listed, .inr ⟨b, body, .inl rfl, closed.record, ?_⟩⟩
              · simp only [notifyClose, runs, Option.map_some, applied, Bool.false_eq_true, if_false]
                rfl
              · rw [applied]
                exact .refl epoll
          | true =>
              let left : State := { told with listed := told.listed.erase b }
              have same : told.removeListener b = left.release b := rfl
              refine ⟨told.removeListener b, lay', ?_, ?_, ?_, .inr ⟨b, body, .inr ?_, ?_, ?_⟩⟩
              · simp only [notifyClose, runs, Option.map_some, applied, if_true]
                rfl
              · exact release_laid (s := left) laid' b
              · rw [same, release_view]
                exact listed
              · exact congrArg State.listed (release_eq left b)
              · have fds : (told.removeListener b).fds = t := congrArg State.fds (release_eq left b)
                rw [fds]
                exact closed.record
              · rw [applied]
                exact release_shuts left b

theorem view_takeWatchList (laid : s.Laid lay) (fd : Nat) (mask : FdEvent) (epoch : Epoch) : ∃ whead fds lay',
    s.fds.takeWatchList s.isEmpty fd mask epoch = some (whead, fds) ∧
      Laid { s with fds, detached := s.detached ++ [whead] } lay' ∧
      { (s.view lay).takeWatchList fd mask epoch with detached := [] } =
        view { s with fds, detached := s.detached ++ [whead] } lay' ∧
      (lay'.held (.drained s.detached.length)).map (watchOf fds.ws) =
        ((s.view lay).takeWatchList fd mask epoch).detached := by
  by_cases skip : (recordOf s.fds lay fd).watches = [] ∨ (epoch ≠ 0 ∧ epoch ≠ (s.fds.fdr fd).epoch)
  · have nothing : (s.view lay).takeWatchList fd mask epoch = s.view lay := if_pos skip
    refine ⟨linkClean, s.fds, lay, ?_, laid.takes_none, ?_, ?_⟩
    · rw [FdEventSet.takeWatchList]
      split
      · rfl
      · refine if_pos (skip.imp_left fun none => ?_)
        exact (laid.slots.lists (.chain fd)).leads.empty_iff.mpr (List.map_eq_nil_iff.mp none)
    · rw [nothing]
      rfl
    · rw [nothing, laid.undrained]
      rfl
  · obtain ⟨some, fresh⟩ := not_or.mp skip
    obtain ⟨whead, t, lay', runs, taken⟩ := laid.takes some fresh
    refine ⟨whead, t, lay', runs, taken.lays, ?_, ?_⟩
    · simp only [Watches.State.takeWatchList]
      rw [if_neg (by exact skip)]
      split
      · rename_i none
        have queue : lay'.queue = lay.queue := taken.queue.trans (if_pos none)
        simp only [view, taken.record, queue]
        rfl
      · rename_i some'
        have queue : lay'.queue = (lay.enqueue fd).queue := taken.queue.trans (if_neg some')
        rw [view_queue lay fd _ rfl]
        simp only [view, taken.record, queue]
        rfl
    · rw [taken.drained]
      simp only [Watches.State.takeWatchList]
      rw [if_neg (by exact skip)]
      split
      · rfl
      · rw [view_queue lay fd _ rfl]
        rfl

theorem popUpdate_list {v : Watches.State} {rest : List Nat} (updates : v.updates = ufd :: rest)
    (masked : v.watchListMask (v.fdrs ufd).watches = mask) :
    v.popUpdate = some ({ fd := ufd, mask, epoch := toldEpoch mask (v.fdrs ufd).epoch },
      { v with
        updates := rest
        fdrs := Function.update v.fdrs ufd
          { v.fdrs ufd with epoch := keptEpoch mask (v.fdrs ufd).epoch } }) := by
  have masked' : Watches.State.watchListMask { v with updates := rest } (v.fdrs ufd).watches = mask := masked
  simp only [Watches.State.popUpdate]
  rw [updates]
  simp only [masked']
  by_cases none : mask = 0
  · simp only [toldEpoch, keptEpoch, if_pos none]
    rfl
  · by_cases young : (v.fdrs ufd).epoch < Watches.userEpoch
    · simp only [toldEpoch, keptEpoch, if_neg none, if_pos young]
      rfl
    · simp only [toldEpoch, keptEpoch, if_neg none, if_neg young, Function.update_eq_self]

theorem view_popUpdate (laid : s.Laid lay) {rest : List Nat} (queue : lay.queue = ufd :: rest) : ∃ fdu fds,
    s.fds.popUpdate s.isEmpty = some (fdu, fds) ∧ Laid { s with fds } { lay with queue := rest } ∧
      (s.view lay).popUpdate = some (fdu, view { s with fds } { lay with queue := rest }) := by
  obtain ⟨t, runs, lays, _, record⟩ := Lays.pops s.isEmpty laid queue
  refine ⟨_, t, runs, lays, ?_⟩
  have updates : (s.view lay).updates = ufd :: rest := queue
  have masked : (s.view lay).watchListMask ((s.view lay).fdrs ufd).watches =
      maskOf s.isEmpty 0 (recordOf s.fds lay ufd).watches := rfl
  rw [popUpdate_list updates masked]
  simp only [view, record]
  rfl

/-- Nothing is popped from an empty list. -/
theorem popUpdate_none (laid : s.Laid lay) (queue : lay.queue = []) : s.fds.popUpdate s.isEmpty = none :=
  if_pos ((Lays.updateLink_end laid).mpr queue)

theorem view_pop (laid : s.Laid lay) {i wix : Nat} (found : s.detached[i]? = some wix) (more : wix ≠ linkClean) :
    ∃ e s' lay', s.pop i = some s' ∧ s'.Laid lay' ∧ e < s.next ∧
      s'.view lay' = { s.view lay with emptied := s.emptied ++ [e] } := by
  obtain ⟨e, rest, small, runs, lays, record⟩ := Lays.drain laid found more
  let s' : State :=
    { s with
      fds := freeSlot s.fds wix
      detached := s.detached.set i (links s.fds.ws wix)
      emptied := s.emptied ++ [e] }
  refine ⟨e, s', lay.free (.drained i) wix rest, ?_, lays, small, ?_⟩
  · rw [pop, found]
    simp only [Option.bind_some, if_neg more, runs]
    rfl
  · simp only [s', view, record]
    rfl

/-! Steps. -/

/-- What each step needs. A watch on a record of another open body dereferences
nothing. -/
def Ready (s : State) : Label → Prop
  | .openFile fd => s.epoll.opened fd = false
  | .close b | .listen b => b < s.bodies.length
  | .unlisten b => b ∈ s.elsewhere
  | .watch fd mask b => fd < 2 ^ 31 ∧ b < s.bodies.length ∧ (0 ≤ fd → mask ≠ 0 →
      ∀ other ∈ (s.fds.fdr fd.toNat).body, other = b ∨ s.isOpen other = false)
  | .pop i => ∃ wix ∈ s.detached[i]?, wix ≠ linkClean
  | .empty e => e < s.next
  | .update => s.fds.updateLink ≠ linkSentinel
  | .closeFile _ | .create _ | .notifyClose _ | .take _ _ _ => True

variable {l : Label}

theorem step_watch (laid : s.Laid lay) {fd : Int} (number : fd < 2 ^ 31) (made : b < s.bodies.length) :
    (∃ s' lay', s.watch fd mask b = some s' ∧ s'.Laid lay' ∧
      listStep (s.view lay) (.watch fd mask b) = some (s'.view lay')) ∨
    s.watch fd mask b = none ∧ ¬s.Ready (.watch fd mask b) := by
  have guard : fd < 2 ^ 31 ∧ b < (s.view lay).bodies.length := ⟨number, made⟩
  simp only [listStep, if_pos guard]
  by_cases idle : fd < 0 ∨ mask = 0
  · refine .inl ⟨_, lay, watch_idle idle, ?_, ?_⟩
    · exact ⟨⟨fun o => (laid.slots.lists o).later (Nat.le_succ _), laid.slots.shared⟩, laid.tail, laid.queue,
        laid.queued, laid.small⟩
    · split
      · rfl
      · rename_i nonneg
        exact if_pos (idle.resolve_left nonneg)
  · have small : fd.toNat < 2 ^ 31 := by omega
    rw [if_neg fun negative => idle (.inl negative)]
    by_cases fits : ∀ other, (s.fds.fdr fd.toNat).body = some other → other = b
    · obtain ⟨s', lay', runs, laid', listed, _⟩ := watch_fits laid small idle fits
      exact .inl ⟨s', lay', runs, laid', listed⟩
    · simp only [not_forall] at fits
      obtain ⟨other, body, differs⟩ := fits
      cases still : s.isOpen other with
      | false =>
          obtain ⟨s', lay', runs, laid', listed, _⟩ := watch_displaces laid small idle body differs still
          exact .inl ⟨s', lay', runs, laid', listed⟩
      | true =>
          refine .inr ⟨watch_undefined idle body differs still, fun ready => ?_⟩
          rcases ready.2.2 (by omega) (fun none => idle (.inr none)) other body with same | shut
          · exact differs same
          · rw [still] at shut
            contradiction

/-- A step keeps the lists, and is one on lists. -/
theorem step_view (laid : s.Laid lay) (moved : s.step l = some s') :
    ∃ lay' l', s'.Laid lay' ∧ Listed l l' ∧ listStep (s.view lay) l' = some (s'.view lay') := by
  cases l with
  | openFile fd =>
      obtain ⟨_, moved⟩ := Option.ite_none_left_eq_some.mp moved
      cases Option.some.inj moved
      exact ⟨lay, _, laid, .same (.openFile fd), rfl⟩
  | closeFile fd =>
      cases Option.some.inj moved
      exact ⟨lay, _, laid, .same (.closeFile fd), rfl⟩
  | create fd =>
      cases Option.some.inj moved
      exact ⟨lay, _, laid, .same _, rfl⟩
  | close b =>
      obtain ⟨body, found, rfl⟩ := Option.map_eq_some_iff.mp moved
      have found' : (s.view lay).bodies[b]? = some body := found
      refine ⟨lay, .close b, ?_, .same _, ?_⟩
      · split
        · exact release_laid (s := { s with bodies := s.bodies.set b { body with isOpen := false } }) laid b
        · exact laid
      · rw [listStep, found', Option.map_some]
        split
        · rw [release_view]
          rfl
        · rfl
  | listen b =>
      obtain ⟨_, moved⟩ := Option.ite_none_right_eq_some.mp moved
      cases Option.some.inj moved
      exact ⟨lay, _, laid, .same (.listen b), rfl⟩
  | unlisten b =>
      obtain ⟨_, moved⟩ := Option.ite_none_right_eq_some.mp moved
      cases Option.some.inj moved
      refine ⟨lay, _, release_laid (s := { s with elsewhere := s.elsewhere.erase b }) laid b, .same (.unlisten b), ?_⟩
      rw [release_view]
      rfl
  | watch fd mask b =>
      obtain ⟨⟨number, made⟩, moved⟩ := Option.ite_none_right_eq_some.mp moved
      rcases step_watch laid number made with ⟨s₁, lay', runs, laid', listed⟩ | ⟨none, _⟩
      · cases Option.some.inj (runs.symm.trans moved)
        exact ⟨lay', _, laid', .same _, listed⟩
      · rw [none] at moved
        contradiction
  | notifyClose fd =>
      obtain ⟨s₁, lay', runs, laid', listed, _⟩ := view_notifyClose laid fd
      cases Option.some.inj (runs.symm.trans moved)
      exact ⟨lay', _, laid', .same _, congrArg some listed⟩
  | take fd mask epoch =>
      obtain ⟨whead, fds, lay', runs, laid', listed, _⟩ := view_takeWatchList laid fd mask epoch
      rw [step, runs] at moved
      cases Option.some.inj moved
      exact ⟨lay', _, laid', .same _, congrArg some listed⟩
  | pop i =>
      have popped : s.pop i = some s' := moved
      obtain ⟨wix, found, rest⟩ := Option.bind_eq_some_iff.mp popped
      obtain ⟨more, _⟩ := Option.ite_none_left_eq_some.mp rest
      obtain ⟨e, s₁, lay', runs, laid', small, listed⟩ := view_pop laid found more
      cases Option.some.inj (runs.symm.trans popped)
      exact ⟨lay', _, laid', .popped i e, (if_pos small).trans (congrArg some listed.symm)⟩
  | empty e =>
      obtain ⟨small, moved⟩ := Option.ite_none_right_eq_some.mp moved
      cases Option.some.inj moved
      exact ⟨lay, _, laid, .same _, if_pos small⟩
  | update =>
      obtain ⟨⟨fdu, fds⟩, popped, rfl⟩ := Option.map_eq_some_iff.mp moved
      cases queue : lay.queue with
      | nil =>
          rw [popUpdate_none laid queue] at popped
          contradiction
      | cons ufd rest =>
          obtain ⟨fdu', fds', runs, laid', listed⟩ := view_popUpdate laid queue
          cases Option.some.inj (runs.symm.trans popped)
          exact ⟨_, _, laid', .same _, Option.map_eq_some_iff.mpr ⟨_, listed, rfl⟩⟩

/-- Loops end and handles that are followed have events. -/
theorem step_defined (laid : s.Laid lay) : (s.step l).isSome = true ↔ s.Ready l := by
  cases l with
  | openFile fd => simp [step, Ready]
  | closeFile fd => exact iff_of_true rfl trivial
  | create fd => exact iff_of_true rfl trivial
  | close b => simp [step, Ready]
  | listen b => simp [step, Ready]
  | unlisten b => simp [step, Ready]
  | watch fd mask b =>
      by_cases guard : fd < 2 ^ 31 ∧ b < s.bodies.length
      · simp only [step, if_pos guard]
        rcases step_watch laid guard.1 guard.2 with ⟨s₁, lay', runs, _, listed⟩ | ⟨none, unready⟩
        · refine iff_of_true (by rw [runs]; rfl) ⟨guard.1, guard.2, fun nonneg noMask other body => ?_⟩
          by_contra neither
          obtain ⟨differs, still⟩ := not_or.mp neither
          have undefined := watch_undefined (not_or.mpr ⟨by omega, noMask⟩) body differs
            (Bool.not_eq_false _ ▸ still)
          rw [runs] at undefined
          contradiction
        · exact iff_of_false (by rw [none]; exact Bool.false_ne_true) unready
      · simp only [step, if_neg guard]
        exact iff_of_false Bool.false_ne_true fun ready => guard ⟨ready.1, ready.2.1⟩
  | notifyClose fd =>
      obtain ⟨s₁, lay', runs, _⟩ := view_notifyClose laid fd
      exact iff_of_true (by rw [step, runs]; rfl) trivial
  | take fd mask epoch =>
      obtain ⟨whead, fds, lay', runs, _⟩ := view_takeWatchList laid fd mask epoch
      exact iff_of_true (by rw [step, runs]; rfl) trivial
  | pop i =>
      constructor
      · intro defined
        obtain ⟨s', moved⟩ := Option.isSome_iff_exists.mp defined
        obtain ⟨wix, found, rest⟩ := Option.bind_eq_some_iff.mp moved
        exact ⟨wix, found, (Option.ite_none_left_eq_some.mp rest).1⟩
      · rintro ⟨wix, found, more⟩
        obtain ⟨e, s₁, lay', runs, _⟩ := view_pop laid found more
        rw [step, runs]
        rfl
  | empty e => simp [step, Ready]
  | update =>
      cases queue : lay.queue with
      | nil =>
          rw [step, popUpdate_none laid queue]
          exact iff_of_false Bool.false_ne_true fun more => more ((Lays.updateLink_end laid).mpr queue)
      | cons ufd rest =>
          obtain ⟨fdu', fds', runs, _⟩ := view_popUpdate laid queue
          rw [step, runs]
          refine iff_of_true rfl fun none => ?_
          rw [(Lays.updateLink_end laid).mp none] at queue
          contradiction

/-! Runs. -/

variable {ls : List Label}

theorem initial_laid : Laid {} ⟨fun _ => [], []⟩ := by
  have none : ∀ u, FdEventSet.fdr {} u = {} := fun u => FdEventSet.fdr_outside (Nat.zero_le u)
  have head : ∀ o, FdEventSet.head {} [] o = linkClean := by
    intro o
    cases o with
    | free => rfl
    | chain u => exact congrArg FdRec.whead (none u)
    | drained i => rfl
  refine ⟨⟨fun o => ?_, ?_⟩, nofun, .nil, fun u => ?_, Nat.zero_le _⟩
  · show Lists [] 0 o (FdEventSet.head {} [] o) []
    rw [head]
    exact ⟨.nil, nofun, fun _ => List.Pairwise.nil⟩
  · refine ⟨fun i => iff_of_false (fun range => ?_) (fun member => nomatch member), nofun, fun _ => List.nodup_nil⟩
    exact absurd (range.1.trans range.2) (by decide)
  · show (FdEventSet.fdr {} u).updateLink ≠ linkClean ↔ u ∈ []
    rw [none]
    exact iff_of_false (fun dirty => dirty rfl) List.not_mem_nil

theorem reached_laid (path : Reaches step {} ls s) : ∃ lay, s.Laid lay := by
  apply path.invariant (P := fun s => ∃ lay, s.Laid lay)
  · rintro s l s' ⟨lay, laid⟩ moved
    obtain ⟨lay', _, laid', _⟩ := step_view laid moved
    exact ⟨lay', laid'⟩
  · exact ⟨_, initial_laid⟩

/-- Every slot is in one list; lists end, and their watches are in the order in which
they were installed; a record is on the update list once or, when its link is clean,
not at all. -/
structure WellFormed (s : State) (lay : Layout) : Prop where
  owner : ∀ wix, 1 ≤ wix → wix ≤ s.fds.ws.length → ∃! o, wix ∈ lay.held o
  valid : ∀ o, ∀ wix ∈ lay.held o, 1 ≤ wix ∧ wix ≤ s.fds.ws.length
  ends : ∀ o, Leads (links s.fds.ws) linkClean (s.fds.head s.detached o) (lay.held o)
  acyclic : ∀ o, (lay.held o).Nodup
  tail : ∀ ufd, ∀ wix ∈ (lay.held (.chain ufd)).getLast?, (s.fds.fdr ufd).wtail = wix
  ordered : ∀ o, o ≠ .free →
    (lay.held o).Pairwise fun a b => ∀ e ∈ (slot s.fds.ws a).ev, ∀ e' ∈ (slot s.fds.ws b).ev, e < e'
  updates : Leads s.fds.updateLinks linkSentinel s.fds.updateLink (lay.queue.map (· + 1))
  once : ∀ ufd, lay.queue.count ufd = if (s.fds.fdr ufd).updateLink = linkClean then 0 else 1

theorem Laid.wellFormed (laid : s.Laid lay) : s.WellFormed lay where
  owner _ low high := laid.slots.shared.owner low high
  valid _ _ member := laid.slots.shared.valid member
  ends o := (laid.slots.lists o).leads
  acyclic := laid.slots.shared.nodup
  tail := laid.tail
  ordered o := (laid.slots.lists o).ordered
  updates := laid.queue
  once ufd := by
    have queued := laid.queued ufd
    split
    · rename_i clean
      exact List.count_eq_zero.mpr fun member => queued.mpr member clean
    · rename_i dirty
      exact List.count_eq_one_of_mem (Lays.queue_nodup laid) (queued.mp dirty)

/-- In every reachable state the table is well formed, and every function of it that
does not dereference what `fd_close` did not return comes to its end. -/
theorem table_well_formed (path : Reaches step {} ls s) :
    (∃ lay, s.WellFormed lay) ∧ ∀ l, (s.step l).isSome = true ↔ s.Ready l := by
  obtain ⟨lay, laid⟩ := reached_laid path
  exact ⟨⟨lay, laid.wellFormed⟩, fun _ => step_defined laid⟩

/-- Two of three watches are taken. While they are drained, one more is installed for
the descriptor, another descriptor grows the array and the first one is closed. -/
theorem table_well_formed_drained :
    let ls : List Label := [.create 3, .create 200, .watch 3 1 0, .watch 3 2 0, .watch 3 5 0, .update,
      .take 3 1 2, .pop 0, .watch 3 4 0, .watch 200 1 1, .close 0, .notifyClose 3, .pop 0, .update]
    ∃ s, Reaches step {} ls s ∧ s.fds.ws.length = 4 ∧ (∃ lay, s.WellFormed lay) ∧
      ∀ l, (s.step l).isSome = true ↔ s.Ready l := by
  intro ls
  have runs : (run step {} ls).map (·.fds.ws.length) = some 4 := by decide +kernel
  obtain ⟨s, ran, slots⟩ := Option.map_eq_some_iff.mp runs
  have path := run_iff_reaches.mp ran
  obtain ⟨formed, defined⟩ := table_well_formed path
  exact ⟨s, path, slots, formed, defined⟩

end State
end Cotamer.Fd.Table
