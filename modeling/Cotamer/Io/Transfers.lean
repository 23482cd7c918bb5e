import Cotamer.Io.Vectors

/-! `writev`, `sendmsg` and `recvmsg`, one system call at a time. The coroutine may be suspended
between any two. What a system call transfers is recorded by address. -/
namespace Cotamer.Io
open Transition

/-- How a system call ends: a byte count, an error that is tried again (`EAGAIN`, `EWOULDBLOCK`,
`EINTR`), or another one. -/
inductive Answer where
  | count (r : Nat)
  | again
  | error (errno : Nat)
  deriving DecidableEq, Repr

/-- What the coroutine returns. -/
abbrev Ioresult := Except Nat Nat

instance : DecidableEq Ioresult
  | .ok a, .ok b => decidable_of_iff (a = b) (by simp)
  | .error a, .error b => decidable_of_iff (a = b) (by simp)
  | .ok _, .error _ => isFalse nofun
  | .error _, .ok _ => isFalse nofun

/-- The end of a loop with `nw` bytes transferred, on an error. -/
def failed (nw errno : Nat) : Ioresult := if 0 < nw then .ok nw else .error errno

/-- The locals of `writev`, and the addresses it has written from. -/
structure Writev where
  memory : Memory
  cursor : Cursor
  nw : Nat := 0
  moved : List Nat := []
  ended : Option Ioresult := none
  deriving DecidableEq, Repr

namespace Writev

/-- The condition of the loop. -/
def loop (s : Writev) : Writev := if s.cursor.cnt = 0 then { s with ended := some (.ok s.nw) } else s

/-- A call transfers no more than there is. -/
def step (s : Writev) : Answer → Option Writev
  | .count r =>
    let buffers := addresses (s.memory.span s.cursor)
    if s.ended.isSome ∨ buffers.length < r then none
    else if 0 < r then
      let (memory, cursor) := s.memory.updateIovec s.cursor r
      some (loop { s with memory, cursor, nw := s.nw + r, moved := s.moved ++ buffers.take r })
    else some { s with ended := some (.ok s.nw) }
  | .again => if s.ended.isSome then none else some s.loop
  | .error errno => if s.ended.isSome then none else some { s with ended := some (failed s.nw errno) }

end Writev

/-- What `recvmsg` puts into a message header. -/
structure Reported where
  namelen : Nat
  controllen : Nat
  flags : Nat
  deriving DecidableEq, Repr

/-- `msghdr`, with its `msg_iov` and `msg_iovlen`. -/
structure Msghdr where
  cursor : Cursor
  reported : Reported := ⟨0, 0, 0⟩
  deriving DecidableEq, Repr

/-- The locals of `sendmsg` and `recvmsg`; `own` says that `mh` is `&mhx`. -/
structure Message where
  memory : Memory
  caller : Msghdr
  mhx : Msghdr := ⟨⟨.caller 0, 0⟩, ⟨0, 0, 0⟩⟩
  own : Bool := false
  n : Nat := 0
  moved : List Nat := []
  ended : Option Ioresult := none
  deriving DecidableEq, Repr

namespace Message

def mh (s : Message) : Msghdr := if s.own then s.mhx else s.caller

/-- The condition of the loop. -/
def loop (s : Message) : Message :=
  if s.mh.cursor.cnt = 0 then { s with ended := some (.ok s.n) } else s

/-- The system call writes to the header in use when it receives. -/
def report (s : Message) (receives : Bool) (reported : Reported) : Message :=
  if !receives then s
  else if s.own then { s with mhx := { s.mhx with reported } }
  else { s with caller := { s.caller with reported } }

/-- The bytes are counted and, unless that was all, the private header is advanced. -/
def advance (s : Message) (waitall : Bool) (r : Nat) : Message :=
  let s := { s with n := s.n + r, moved := s.moved ++ (addresses (s.memory.span s.mh.cursor)).take r }
  if r = 0 ∨ !waitall ∨ s.memory.msghdrDone s.mh.cursor r then { s with ended := some (.ok s.n) }
  else
    let (memory, cursor) := s.memory.updateIovec s.mh.cursor r
    let mhx := if s.own then s.mhx else ⟨s.caller.cursor, ⟨0, 0, 0⟩⟩
    loop { s with memory, mhx := { mhx with cursor }, own := true }

def step (receives waitall : Bool) (s : Message) : Answer × Reported → Option Message
  | (.count r, reported) =>
    if s.ended.isSome ∨ (addresses (s.memory.span s.mh.cursor)).length < r then none
    else some ((s.report receives reported).advance waitall r)
  | (.again, _) => if s.ended.isSome then none else some s.loop
  | (.error errno, _) =>
    if s.ended.isSome then none else some { s with ended := some (failed s.n errno) }

end Message

def sendmsg (waitall : Bool) : Message → Answer × Reported → Option Message := Message.step false waitall

def recvmsg (waitall : Bool) : Message → Answer × Reported → Option Message := Message.step true waitall

/-- Where a transfer from the buffers of `a` stands. -/
structure Underway (a : List Iovec) (m : Memory) (c : Cursor) (n : Nat) (moved : List Nat) : Prop where
  caller : m.caller = a
  valid : m.Valid c
  placed : m.Placed c
  rest : addresses (m.span c) = (addresses a).drop n
  bound : n ≤ (addresses a).length
  moved : moved = (addresses a).take n

/-- A transfer at any time: the caller's array is as it was, the bytes moved are the first of its
buffers, and the result says how many, or there are none. -/
structure Exact (a : List Iovec) (m : Memory) (moved : List Nat) (ended : Option Ioresult) : Prop where
  caller : m.caller = a
  front : moved = (addresses a).take moved.length
  counted : ∀ n, ended = some (.ok n) → n = moved.length
  nothing : ∀ errno, ended = some (.error errno) → moved = []

/-- A transfer whose calls, `calls` of them with a count, have all made progress: it has ended only
with all bytes moved, and each call has moved some. -/
structure Whole (a : List Iovec) (moved : List Nat) (ended : Option Ioresult) (calls : Nat) : Prop where
  all : ended.isSome → moved = addresses a
  fewer : calls ≤ moved.length
  more : 0 < (addresses a).length → ended = none → moved.length < (addresses a).length

def Answer.progress : Answer → Bool
  | .count r => 0 < r
  | .again => true
  | .error _ => false

def Answer.counts : Answer → Bool
  | .count _ => true
  | _ => false

variable {a : List Iovec} {m : Memory} {c : Cursor} {n r : Nat} {moved : List Nat} {s t : Writev}

theorem Underway.length (under : Underway a m c n moved) : moved.length = n := by
  rw [under.moved, List.length_take_of_le under.bound]

theorem Underway.start (a : List Iovec) : Underway a ⟨a, []⟩ ⟨.caller 0, a.length⟩ 0 [] where
  caller := rfl
  valid := List.length_take_of_le (Nat.le_refl _)
  placed := rfl
  rest := congrArg addresses (List.take_length)
  bound := Nat.zero_le _
  moved := List.take_zero.symm

theorem Underway.advanced (under : Underway a m c n moved) (bound : r ≤ (addresses (m.span c)).length) :
    n + r ≤ (addresses a).length ∧
      moved ++ (addresses (m.span c)).take r = (addresses a).take (n + r) ∧
      Underway a (m.updateIovec c r).1 (m.updateIovec c r).2 (n + r)
        (moved ++ (addresses (m.span c)).take r) := by
  obtain ⟨caller, valid, placed, rest⟩ := updateIovec_spec under.valid under.placed bound
  have inside : n + r ≤ (addresses a).length := by
    have length := congrArg List.length under.rest
    have before := under.bound
    rw [List.length_drop] at length
    omega
  have front : moved ++ (addresses (m.span c)).take r = (addresses a).take (n + r) := by
    rw [under.moved, under.rest, List.take_add]
  refine ⟨inside, front, caller.trans under.caller, valid, placed, ?_, inside, front⟩
  rw [rest, under.rest, List.drop_drop]

/-- No entries are left exactly when all bytes have been moved. -/
theorem Underway.over (under : Underway a m c n moved) (none : c.cnt = 0) : moved = addresses a := by
  have valid := under.valid
  rw [Memory.Valid, none, List.length_eq_zero_iff] at valid
  have rest := under.rest
  rw [valid, addresses, List.flatMap_nil, eq_comm, List.drop_eq_nil_iff] at rest
  rw [under.moved, List.take_of_length_le rest]

theorem Underway.going (under : Underway a m c n moved) (bound : r ≤ (addresses (m.span c)).length)
    (more : (m.updateIovec c r).2.cnt ≠ 0) : n + r < (addresses a).length := by
  have part : r ≠ (addresses (m.span c)).length := by
    rw [ne_eq, ← msghdrDone_iff under.valid bound, Memory.msghdrDone, beq_iff_eq, ← updateIovec_cnt]
    exact more
  have length := congrArg List.length under.rest
  have before := under.bound
  rw [List.length_drop] at length
  omega

theorem Exact.stopped (caller : m.caller = a) (front : moved = (addresses a).take n)
    (bound : n ≤ (addresses a).length) : Exact a m moved (some (.ok n)) := by
  have length : moved.length = n := by rw [front, List.length_take_of_le bound]
  refine ⟨caller, by rw [length, front], fun k same => ?_, nofun⟩
  cases same
  exact length.symm

theorem Underway.exact (under : Underway a m c n moved) : Exact a m moved none :=
  ⟨under.caller, by rw [under.length, under.moved], nofun, nofun⟩

theorem Underway.failed (under : Underway a m c n moved) (errno : Nat) :
    Exact a m moved (some (failed n errno)) := by
  unfold Io.failed
  split
  · exact Exact.stopped under.caller under.moved under.bound
  · rename_i none
    refine ⟨under.caller, by rw [under.length, under.moved], nofun, fun _ _ => ?_⟩
    exact List.length_eq_zero_iff.mp (under.length.trans (Nat.eq_zero_of_not_pos none))

namespace Writev

def start (a : List Iovec) : Writev := { memory := ⟨a, []⟩, cursor := ⟨.caller 0, a.length⟩ }

/-- Between system calls. -/
structure Sound (a : List Iovec) (s : Writev) : Prop where
  under : s.ended = none → Underway a s.memory s.cursor s.nw s.moved
  exact : Exact a s.memory s.moved s.ended

theorem loop_sound (under : Underway a s.memory s.cursor s.nw s.moved) (running : s.ended = none) :
    Sound a s.loop := by
  unfold loop
  split
  · exact ⟨nofun, Exact.stopped under.caller under.moved under.bound⟩
  · exact ⟨fun _ => under, running ▸ under.exact⟩

theorem step_sound (sound : Sound a s) (made : s.step l = some t) : Sound a t := by
  cases l with
  | count r =>
      simp only [step, Option.ite_none_left_eq_some, not_or, Bool.not_eq_true,
        Option.isSome_eq_false_iff, Option.isNone_iff_eq_none, Nat.not_lt] at made
      obtain ⟨⟨running, bound⟩, made⟩ := made
      have under := sound.under running
      split at made
      · cases made
        exact loop_sound (under.advanced bound).2.2 running
      · cases made
        exact ⟨nofun, Exact.stopped under.caller under.moved under.bound⟩
  | again =>
      simp only [step, Option.ite_none_left_eq_some, Bool.not_eq_true, Option.isSome_eq_false_iff,
        Option.isNone_iff_eq_none] at made
      obtain ⟨running, made⟩ := made
      cases made
      exact loop_sound (sound.under running) running
  | error errno =>
      simp only [step, Option.ite_none_left_eq_some, Bool.not_eq_true, Option.isSome_eq_false_iff,
        Option.isNone_iff_eq_none] at made
      obtain ⟨running, made⟩ := made
      cases made
      exact ⟨nofun, (sound.under running).failed errno⟩

theorem start_sound (a : List Iovec) : Sound a (start a) :=
  ⟨fun _ => .start a, (Underway.start a).exact⟩

theorem loop_ended (s : Writev) : s.loop.ended = if s.cursor.cnt = 0 then some (.ok s.nw) else s.ended := by
  unfold loop
  split <;> rfl

theorem loop_moved (s : Writev) : s.loop.moved = s.moved := by
  unfold loop
  split <;> rfl

theorem step_whole {calls : Nat} (sound : Sound a s) (whole : Whole a s.moved s.ended calls)
    (made : s.step l = some t) (progress : l.progress = true) :
    Whole a t.moved t.ended (calls + if l.counts then 1 else 0) := by
  cases l with
  | count r =>
      simp only [step, Option.ite_none_left_eq_some, not_or, Bool.not_eq_true,
        Option.isSome_eq_false_iff, Option.isNone_iff_eq_none, Nat.not_lt] at made
      obtain ⟨⟨running, bound⟩, made⟩ := made
      have under := sound.under running
      have some : 0 < r := by simpa [Answer.progress] using progress
      rw [if_pos some] at made
      cases made
      obtain ⟨inside, front, under'⟩ := under.advanced bound
      have length := under'.length
      refine ⟨?_, ?_, ?_⟩
      · rw [loop_ended, loop_moved]
        split
        · exact fun _ => under'.over ‹_›
        · simp [running]
      · rw [loop_moved, length]
        have fewer := whole.fewer
        rw [under.length] at fewer
        simp only [Answer.counts, if_true]
        omega
      · rw [loop_ended, loop_moved, length]
        split
        · nofun
        · exact fun _ _ => under.going bound ‹_›
  | again =>
      simp only [step, Option.ite_none_left_eq_some, Bool.not_eq_true, Option.isSome_eq_false_iff,
        Option.isNone_iff_eq_none] at made
      obtain ⟨running, made⟩ := made
      cases made
      refine ⟨?_, by rw [loop_moved]; exact whole.fewer, ?_⟩
      · rw [loop_ended, loop_moved]
        split
        · exact fun _ => (sound.under running).over ‹_›
        · simp [running]
      · rw [loop_ended, loop_moved]
        split
        · nofun
        · exact whole.more
  | error errno => contradiction

end Writev

namespace Message
variable {s t : Message} {receives waitall : Bool} {l : Answer × Reported} {header : Reported}

/-- The `msghdr` of the caller. -/
def given (a : List Iovec) (header : Reported) : Msghdr := ⟨⟨.caller 0, a.length⟩, header⟩

def start (a : List Iovec) (header : Reported) : Message := { memory := ⟨a, []⟩, caller := given a header }

structure Sound (a : List Iovec) (s : Message) : Prop where
  under : s.ended = none → Underway a s.memory s.mh.cursor s.n s.moved
  exact : Exact a s.memory s.moved s.ended

/-- Only what the system call reports can change in the caller's header. -/
def Same (receives : Bool) (a : List Iovec) (header : Reported) (s : Message) : Prop :=
  s.caller.cursor = ⟨.caller 0, a.length⟩ ∧ (receives = false → s.caller.reported = header)

theorem loop_ended (s : Message) : s.loop.ended = if s.mh.cursor.cnt = 0 then some (.ok s.n) else s.ended := by
  unfold loop
  split <;> rfl

theorem loop_moved (s : Message) : s.loop.moved = s.moved := by
  unfold loop
  split <;> rfl

theorem loop_caller (s : Message) : s.loop.caller = s.caller := by
  unfold loop
  split <;> rfl

theorem loop_sound (under : Underway a s.memory s.mh.cursor s.n s.moved) (running : s.ended = none) :
    Sound a s.loop := by
  unfold loop
  split
  · exact ⟨nofun, Exact.stopped under.caller under.moved under.bound⟩
  · exact ⟨fun _ => under, running ▸ under.exact⟩

/-- A report changes neither the transfer nor the buffers of a header. -/
theorem report_same (s : Message) (receives : Bool) (reported : Reported) :
    (s.report receives reported).memory = s.memory ∧
      (s.report receives reported).mh.cursor = s.mh.cursor ∧
      (s.report receives reported).n = s.n ∧
      (s.report receives reported).moved = s.moved ∧
      (s.report receives reported).ended = s.ended ∧
      (s.report receives reported).caller.cursor = s.caller.cursor ∧
      (receives = false → (s.report receives reported).caller = s.caller) := by
  unfold report mh
  cases receives <;> cases own : s.own <;> simp [own]

/-- The transfer before the loop's condition is tested. -/
theorem advance_sound (under : Underway a s.memory s.mh.cursor s.n s.moved) (running : s.ended = none)
    (bound : r ≤ (addresses (s.memory.span s.mh.cursor)).length) (waitall : Bool) :
    Sound a (s.advance waitall r) := by
  obtain ⟨inside, front, under'⟩ := under.advanced bound
  simp only [advance]
  split
  · exact ⟨nofun, Exact.stopped under.caller front inside⟩
  · exact loop_sound under' running

theorem advance_caller (s : Message) (waitall : Bool) (r : Nat) : (s.advance waitall r).caller = s.caller := by
  simp only [advance]
  split
  · rfl
  · rw [loop_caller]

theorem step_sound (sound : Sound a s) (made : s.step receives waitall l = some t) : Sound a t := by
  obtain ⟨answer, reported⟩ := l
  cases answer with
  | count r =>
      simp only [step, Option.ite_none_left_eq_some, not_or, Bool.not_eq_true,
        Option.isSome_eq_false_iff, Option.isNone_iff_eq_none, Nat.not_lt] at made
      obtain ⟨⟨running, bound⟩, made⟩ := made
      cases made
      obtain ⟨memory, cursor, n, moved, ended, _⟩ := report_same s receives reported
      have under := sound.under running
      rw [← memory, ← cursor] at bound
      rw [← memory, ← cursor, ← n, ← moved] at under
      exact advance_sound under (ended.trans running) bound waitall
  | again =>
      simp only [step, Option.ite_none_left_eq_some, Bool.not_eq_true, Option.isSome_eq_false_iff,
        Option.isNone_iff_eq_none] at made
      obtain ⟨running, made⟩ := made
      cases made
      exact loop_sound (sound.under running) running
  | error errno =>
      simp only [step, Option.ite_none_left_eq_some, Bool.not_eq_true, Option.isSome_eq_false_iff,
        Option.isNone_iff_eq_none] at made
      obtain ⟨running, made⟩ := made
      cases made
      exact ⟨nofun, (sound.under running).failed errno⟩

theorem step_same (same : s.Same receives a header) (made : s.step receives waitall l = some t) :
    t.Same receives a header := by
  obtain ⟨answer, reported⟩ := l
  cases answer with
  | count r =>
      simp only [step, Option.ite_none_left_eq_some] at made
      cases made.2
      obtain ⟨_, _, _, _, _, cursor, whole⟩ := report_same s receives reported
      rw [Same, advance_caller, cursor]
      exact ⟨same.1, fun sends => by rw [whole sends, same.2 sends]⟩
  | again =>
      simp only [step, Option.ite_none_left_eq_some] at made
      cases made.2
      rwa [Same, loop_caller]
  | error errno =>
      simp only [step, Option.ite_none_left_eq_some] at made
      cases made.2
      exact same

theorem advance_whole {calls : Nat} (under : Underway a s.memory s.mh.cursor s.n s.moved)
    (running : s.ended = none) (bound : r ≤ (addresses (s.memory.span s.mh.cursor)).length)
    (some : 0 < r) (fewer : calls ≤ s.n) :
    Whole a (s.advance true r).moved (s.advance true r).ended (calls + 1) := by
  obtain ⟨inside, front, under'⟩ := under.advanced bound
  have length := under'.length
  have zero : r ≠ 0 := Nat.ne_of_gt some
  simp only [advance, zero, Bool.not_true, Bool.false_eq_true, false_or]
  split
  · rename_i done
    have last := (msghdrDone_iff under.valid bound).mp done
    refine ⟨fun _ => ?_, by rw [length]; omega, by simp⟩
    rw [last, under.rest, List.take_length, under.moved, List.take_append_drop]
  · rename_i part
    have more : (s.memory.updateIovec s.mh.cursor r).2.cnt ≠ 0 := by
      have going : ¬s.memory.msghdrDone s.mh.cursor r = true := part
      rw [updateIovec_cnt]
      simpa [Memory.msghdrDone] using going
    have less := under.going bound more
    refine ⟨?_, by rw [loop_moved, length]; omega, fun _ _ => by rwa [loop_moved, length]⟩
    rw [loop_ended]
    change (if (s.memory.updateIovec s.mh.cursor r).2.cnt = 0 then _ else s.ended).isSome = true → _
    rw [if_neg more, running]
    rintro ⟨⟩

theorem step_whole {calls : Nat} (sound : Sound a s) (whole : Whole a s.moved s.ended calls)
    (made : s.step receives true l = some t) (progress : l.1.progress = true) :
    Whole a t.moved t.ended (calls + if l.1.counts then 1 else 0) := by
  obtain ⟨answer, reported⟩ := l
  cases answer with
  | count r =>
      simp only [step, Option.ite_none_left_eq_some, not_or, Bool.not_eq_true,
        Option.isSome_eq_false_iff, Option.isNone_iff_eq_none, Nat.not_lt] at made
      obtain ⟨⟨running, bound⟩, made⟩ := made
      cases made
      obtain ⟨memory, cursor, n, moved, ended, _⟩ := report_same s receives reported
      have under := sound.under running
      have fewer := whole.fewer
      rw [under.length, ← n] at fewer
      rw [← memory, ← cursor] at bound
      rw [← memory, ← cursor, ← n, ← moved] at under
      exact advance_whole under (ended.trans running) bound (by simpa [Answer.progress] using progress) fewer
  | again =>
      simp only [step, Option.ite_none_left_eq_some, Bool.not_eq_true, Option.isSome_eq_false_iff,
        Option.isNone_iff_eq_none] at made
      obtain ⟨running, made⟩ := made
      cases made
      refine ⟨?_, by rw [loop_moved]; exact whole.fewer, ?_⟩
      · rw [loop_ended, loop_moved]
        split
        · exact fun _ => (sound.under running).over ‹_›
        · simp [running]
      · rw [loop_ended, loop_moved]
        split
        · nofun
        · exact whole.more
  | error errno => contradiction

end Message

/-- Runs whose calls all make progress, the answer of each being part of its label. -/
theorem run_whole {S L : Type} {step : S → L → Option S} {sound : S → Prop} (answer : L → Answer)
    (moved : S → List Nat) (ended : S → Option Ioresult)
    (kept : ∀ {s l t}, sound s → step s l = some t → sound t)
    (grows : ∀ {s l t calls}, sound s → Whole a (moved s) (ended s) calls → step s l = some t →
      (answer l).progress = true → Whole a (moved t) (ended t) (calls + if (answer l).counts then 1 else 0))
    {s t : S} {ls : List L} (path : Reaches step s ls t) (start : sound s)
    (progress : ∀ l ∈ ls, (answer l).progress = true) (calls : Nat)
    (whole : Whole a (moved s) (ended s) calls) :
    Whole a (moved t) (ended t) (calls + ls.countP fun l => (answer l).counts) := by
  induction path generalizing calls with
  | refl => exact whole
  | next made _ ih =>
      obtain ⟨now, later⟩ := List.forall_mem_cons.mp progress
      have rest := ih (kept start made) later _ (grows start whole made now)
      rwa [List.countP_cons, Nat.add_comm (List.countP _ _), ← Nat.add_assoc]

theorem Whole.start (a : List Iovec) : Whole a [] none 0 := ⟨nofun, Nat.le_refl 0, fun some _ => some⟩

namespace Message

theorem run_exact {ls : List (Answer × Reported)} {s : Message}
    (path : Reaches (step receives waitall) (start a header) ls s) :
    Exact a s.memory s.moved s.ended ∧ s.Same receives a header := by
  have began : Sound a (start a header) := ⟨fun _ => .start a, (Underway.start a).exact⟩
  exact ⟨(path.invariant step_sound began).exact, path.invariant step_same ⟨rfl, fun _ => rfl⟩⟩

theorem run_whole {ls : List (Answer × Reported)} {s : Message}
    (path : Reaches (step receives true) (start a header) ls s)
    (progress : ∀ l ∈ ls, l.1.progress = true) :
    Whole a s.moved s.ended (ls.countP fun l => l.1.counts) := by
  have began : Sound a (start a header) := ⟨fun _ => .start a, (Underway.start a).exact⟩
  have whole := Io.run_whole Prod.fst moved ended step_sound step_whole path began progress 0 (.start a)
  rwa [Nat.zero_add] at whole

end Message

/-- Whatever the system calls answer, a transfer moves the first bytes of the buffers, says how many
it moved, and fails only without any; when all calls make progress it moves them all, in finitely
many calls. The caller's array stays as it is, and in a message header only what `recvmsg` itself
reports there changes. -/
theorem transfers_exact (a : List Iovec) (header : Reported) :
    (∀ ls s, Reaches Writev.step (.start a) ls s →
      Exact a s.memory s.moved s.ended ∧
      ((∀ l ∈ ls, l.progress = true) → Whole a s.moved s.ended (ls.countP Answer.counts))) ∧
    (∀ waitall ls s, Reaches (sendmsg waitall) (.start a header) ls s →
      Exact a s.memory s.moved s.ended ∧ s.caller = Message.given a header ∧
      (waitall = true → (∀ l ∈ ls, l.1.progress = true) →
        Whole a s.moved s.ended (ls.countP fun l => l.1.counts))) ∧
    (∀ waitall ls s, Reaches (recvmsg waitall) (.start a header) ls s →
      Exact a s.memory s.moved s.ended ∧ s.caller.cursor = (Message.given a header).cursor ∧
      (waitall = true → (∀ l ∈ ls, l.1.progress = true) →
        Whole a s.moved s.ended (ls.countP fun l => l.1.counts))) := by
  refine ⟨fun ls s path => ⟨?_, fun progress => ?_⟩, fun waitall ls s path => ⟨?_, ?_, ?_⟩,
    fun waitall ls s path => ⟨?_, ?_, ?_⟩⟩
  · exact (path.invariant Writev.step_sound (Writev.start_sound a)).exact
  · have whole := run_whole id Writev.moved Writev.ended Writev.step_sound Writev.step_whole path
      (Writev.start_sound a) progress 0 (.start a)
    rwa [Nat.zero_add] at whole
  · exact (Message.run_exact path).1
  · obtain ⟨cursor, reported⟩ := (Message.run_exact path).2
    rw [Message.given, ← cursor, ← reported rfl]
  · rintro rfl progress
    exact Message.run_whole path progress
  · exact (Message.run_exact path).1
  · exact (Message.run_exact path).2.1
  · rintro rfl progress
    exact Message.run_whole path progress

/-- Three buffers, the second empty, received in two pieces. -/
def threeBuffers : List Iovec := [⟨100, 2⟩, ⟨200, 0⟩, ⟨300, 3⟩]

def twoPieces : List (Answer × Reported) :=
  [(.again, ⟨0, 0, 0⟩), (.count 3, ⟨16, 0, 0⟩), (.count 2, ⟨0, 0, 0⟩)]

theorem transfers_exact_three : ∃ s, Reaches (recvmsg true) (.start threeBuffers ⟨0, 0, 7⟩) twoPieces s ∧
    Exact threeBuffers s.memory s.moved s.ended := by
  have path := run_iff_reaches.mp (Option.some_get (by decide :
    (run (recvmsg true) (.start threeBuffers ⟨0, 0, 7⟩) twoPieces).isSome)).symm
  exact ⟨_, path, ((transfers_exact threeBuffers ⟨0, 0, 7⟩).2.2 true _ _ path).1⟩

/-- `recvmsg` reports into the header it was called with. -/
theorem received_header_changes : ∃ s, Reaches (recvmsg true) (.start [⟨100, 1⟩] ⟨0, 0, 7⟩)
    [(.count 1, ⟨16, 0, 0⟩)] s ∧ s.ended = some (.ok 1) ∧
      s.caller ≠ Message.given [⟨100, 1⟩] ⟨0, 0, 7⟩ :=
  ⟨_, run_iff_reaches.mp rfl, rfl, by decide⟩

end Cotamer.Io
