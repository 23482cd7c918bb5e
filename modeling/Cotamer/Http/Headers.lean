import Cotamer.Http.Message

/-! Any number of messages under any sequence of their operations. The copy
constructor leaves the index behind, and `clear` leaves the text. -/
namespace Cotamer.Http
open Chunked Spans Transition

/-- A message variable. After it was moved from, or made from one that was, its contents
are unspecified. -/
structure Slot where
  message : Message
  live : Bool := true
  moved : Bool := false
  deriving DecidableEq, Repr

inductive MessageOp where
  | construct (method : UInt8) (url : Bytes) (statusCode : UInt16)
  | copyConstruct (x : Nat)
  | moveConstruct (x : Nat) (left : Message)      -- `left` is what the source is left with
  | copyAssign (m x : Nat)
  | moveAssign (m x : Nat) (left : Message)
  | addHeader (m : Nat) (key value : Bytes)
  | setBody (m : Nat) (body : Bytes)
  | appendBody (m : Nat) (str : Bytes)
  | jsonBody (m : Nat) (dump : Bytes)
  | setUrl (m : Nat) (url : Bytes)
  | setStatus (m : Nat) (code : UInt16) (message : Bytes)
  | clear (m : Nat)
  | destroy (m : Nat)
  deriving DecidableEq, Repr

namespace Messages

abbrev State := List Slot

variable {s t : State} {op : MessageOp} {ops : List MessageOp} {i : Nat} {m x : Message} {slot : Slot}

def slot? (s : State) (i : Nat) : Option Slot := s[i]?.filter Slot.live

def update (s : State) (i : Nat) (f : Message → Message) : Option State :=
  (slot? s i).map fun slot => s.set i { slot with message := f slot.message }

def step (s : State) : MessageOp → Option State
  | .construct method url statusCode => some (s ++ [{ message := { method, url, statusCode } }])
  | .copyConstruct x =>
    (slot? s x).map fun source => s ++ [{ source with message := source.message.copyConstruct }]
  | .moveConstruct x left =>
    (slot? s x).map fun source => s.set x { message := left, moved := true } ++ [source]
  | .copyAssign m x =>
    match slot? s m, slot? s x with
    | some target, some source =>
      if m = x then some s
      else some (s.set m { source with message := target.message.copyAssign source.message })
    | _, _ => none
  | .moveAssign m x left =>
    match slot? s m, slot? s x with
    | some _, some source => some ((s.set m source).set x { message := left, moved := true })
    | _, _ => none
  | .addHeader m key value => update s m (·.addHeader key value)
  | .setBody m body => update s m (·.setBody body)
  | .appendBody m str => update s m (·.appendBody str)
  | .jsonBody m dump => update s m (·.jsonBody dump)
  | .setUrl m url => update s m (·.setUrl url)
  | .setStatus m code message => update s m (·.setStatus code message)
  | .clear m => update s m Message.clear
  | .destroy m => (slot? s m).map fun slot => s.set m { slot with live := false }

/-- A live message whose contents are specified is in step. -/
def Sound (slot : Slot) : Prop := slot.live = true → slot.moved = false → slot.message.InStep

/-- Text and index are in step in all messages. -/
def InStep (s : State) : Prop := ∀ slot ∈ s, Sound slot

/-- Only a message without headers is copy-constructed or cleared. -/
def Careful (s : State) : MessageOp → Prop
  | .copyConstruct i | .clear i => ∀ slot ∈ slot? s i, slot.moved = false → slot.message.headers = []
  | _ => True

/-- A header text stays within the range of the offsets. -/
def Fits (s : State) : MessageOp → Prop
  | .addHeader i key value => ∀ slot ∈ slot? s i, slot.moved = false →
      slot.message.headers.length + Message.lineLength key value ≤ 2 ^ 32
  | .jsonBody i _ => ∀ slot ∈ slot? s i, slot.moved = false →
      slot.message.headers.length +
        Message.lineLength (ascii "Content-Type") (ascii "application/json") ≤ 2 ^ 32
  | _ => True

instance (s : State) (op : MessageOp) : Decidable (Careful s op) := by
  cases op <;> unfold Careful <;> infer_instance

instance (s : State) (op : MessageOp) : Decidable (Fits s op) := by
  cases op <;> unfold Fits <;> infer_instance

theorem slot?_some (found : slot? s i = some slot) : s[i]? = some slot ∧ slot.live = true := by
  simpa [slot?, Option.filter_eq_some_iff] using found

theorem InStep.found (inStep : InStep s) (found : slot? s i = some slot) (specified : slot.moved = false) :
    slot.message.InStep := by
  obtain ⟨here, live⟩ := slot?_some found
  exact inStep slot (List.mem_of_getElem? here) live specified

theorem InStep.append (inStep : InStep s) (sound : Sound slot) : InStep (s ++ [slot]) := by
  intro other member
  rcases List.mem_append.mp member with old | new
  · exact inStep other old
  · rw [List.mem_singleton.mp new]
    exact sound

theorem InStep.set (inStep : InStep s) (sound : Sound slot) : InStep (s.set i slot) := by
  intro other member
  rcases List.mem_or_eq_of_mem_set member with old | rfl
  · exact inStep other old
  · exact sound

theorem InStep.update {f : Message → Message} (inStep : InStep s)
    (keeps : ∀ slot, slot? s i = some slot → slot.moved = false → (f slot.message).InStep)
    (moved : Messages.update s i f = some t) : InStep t := by
  obtain ⟨slot, found, rfl⟩ := Option.map_eq_some_iff.mp moved
  exact inStep.set fun _ specified => keeps slot found specified

/-- An operation that touches neither the text nor the index. -/
theorem InStep.kept {f : Message → Message} (inStep : InStep s)
    (same : ∀ m, (f m).headers = m.headers ∧ (f m).hpairs = m.hpairs)
    (moved : Messages.update s i f = some t) : InStep t := by
  refine inStep.update (fun slot found specified => ?_) moved
  have before := inStep.found found specified
  obtain ⟨headers, hpairs⟩ := same slot.message
  constructor
  · rw [Message.headerList, headers, hpairs]
    exact before.text
  · rw [headers, hpairs]
    exact before.inside

theorem moved_sound (left : Message) : Sound { message := left, moved := true } := nofun

/-! The index is empty after a copy construction and after `clear`. -/

theorem unindexed_inStep (empty : m.hpairs = []) : m.InStep ↔ m.headers = [] := by
  have list : m.headerList = [] := by rw [Message.headerList, empty, List.map_nil]
  constructor
  · intro inStep
    rw [inStep.text, list]
    rfl
  · intro none
    refine ⟨?_, ?_⟩
    · rw [none, list]
      rfl
    · rw [empty]
      simp

theorem jsonBody_inStep (inStep : m.InStep) (dump : Bytes)
    (fits : m.headers.length +
      Message.lineLength (ascii "Content-Type") (ascii "application/json") ≤ 2 ^ 32) :
    (m.jsonBody dump).InStep := by
  rw [Message.jsonBody]
  split
  · exact ⟨inStep.text, inStep.inside⟩
  · have added := (inStep.addHeader fits).1
    exact ⟨added.text, added.inside⟩

theorem step_inStep (inStep : InStep s) (ok : Careful s op ∧ Fits s op) (moved : step s op = some t) :
    InStep t := by
  obtain ⟨careful, fits⟩ := ok
  cases op with
  | construct method url statusCode =>
      cases Option.some.inj moved
      exact inStep.append fun _ _ => ⟨rfl, nofun⟩
  | copyConstruct x =>
      obtain ⟨source, found, rfl⟩ := Option.map_eq_some_iff.mp moved
      exact inStep.append fun _ specified => (unindexed_inStep rfl).mpr (careful source found specified)
  | moveConstruct x left =>
      obtain ⟨source, found, rfl⟩ := Option.map_eq_some_iff.mp moved
      exact (inStep.set (moved_sound left)).append fun _ specified => inStep.found found specified
  | copyAssign m x =>
      simp only [step] at moved
      split at moved
      · rename_i target source _ found
        split at moved <;> cases Option.some.inj moved
        · exact inStep
        · refine inStep.set fun _ specified => ?_
          have same := inStep.found found specified
          exact ⟨same.text, same.inside⟩
      · contradiction
  | moveAssign m x left =>
      simp only [step] at moved
      split at moved
      · rename_i source _ found
        cases Option.some.inj moved
        exact (inStep.set fun _ specified => inStep.found found specified).set (moved_sound left)
      · contradiction
  | addHeader m key value =>
      refine inStep.update (f := (·.addHeader key value)) (fun slot found specified => ?_) moved
      exact ((inStep.found found specified).addHeader (fits slot found specified)).1
  | setBody m body => exact inStep.kept (f := (·.setBody body)) (fun _ => ⟨rfl, rfl⟩) moved
  | appendBody m str => exact inStep.kept (f := (·.appendBody str)) (fun _ => ⟨rfl, rfl⟩) moved
  | setUrl m url => exact inStep.kept (f := (·.setUrl url)) (fun _ => ⟨rfl, rfl⟩) moved
  | setStatus m code message =>
      exact inStep.kept (f := (·.setStatus code message)) (fun _ => ⟨rfl, rfl⟩) moved
  | jsonBody m dump =>
      refine inStep.update (f := (·.jsonBody dump)) (fun slot found specified => ?_) moved
      exact jsonBody_inStep (inStep.found found specified) dump (fits slot found specified)
  | clear m =>
      refine inStep.update (f := Message.clear) (fun slot found specified => ?_) moved
      exact (unindexed_inStep rfl).mpr (careful slot found specified)
  | destroy m =>
      obtain ⟨slot, _, rfl⟩ := Option.map_eq_some_iff.mp moved
      exact inStep.set nofun

/-- Copying or clearing a message that has headers puts a message out of step. -/
theorem careful_of_inStep (moved : step s op = some t) (after : InStep t) : Careful s op := by
  cases op with
  | copyConstruct x =>
      obtain ⟨source, found, rfl⟩ := Option.map_eq_some_iff.mp moved
      intro slot here specified
      cases Option.some.inj (found.symm.trans here)
      have copy : source.message.copyConstruct.InStep :=
        after _ (List.mem_append_right s (List.mem_singleton_self _)) (slot?_some found).2 specified
      have none : source.message.copyConstruct.headers = [] := (unindexed_inStep rfl).mp copy
      exact none
  | clear m =>
      obtain ⟨source, found, rfl⟩ := Option.map_eq_some_iff.mp moved
      intro slot here specified
      cases Option.some.inj (found.symm.trans here)
      obtain ⟨place, live⟩ := slot?_some found
      have bound := (List.getElem?_eq_some_iff.mp place).1
      have cleared : source.message.clear.InStep := after _ (List.mem_set bound _) live specified
      have none : source.message.clear.headers = [] := (unindexed_inStep rfl).mp cleared
      exact none
  | _ => trivial

/-- The messages agree in everything but the cache. -/
def Same (m x : Message) : Prop := { m with info := none } = { x with info := none }

theorem copyAssign_same (m x : Message) : Same (m.copyAssign x) x := rfl

theorem copyConstruct_same (m : Message) : Same m.copyConstruct m ↔ m.hpairs = [] := by
  constructor
  · intro same
    exact (congrArg Message.hpairs same).symm
  · intro empty
    simp [Same, Message.copyConstruct, empty]

theorem hpairs_eq_nil (inStep : m.InStep) : m.hpairs = [] ↔ m.headers = [] := by
  constructor
  · intro empty
    exact (unindexed_inStep empty).mp inStep
  · intro empty
    by_contra some
    obtain ⟨p, rest, split⟩ := List.exists_cons_of_ne_nil some
    have length := congrArg List.length inStep.text
    rw [empty, Message.headerList, split, List.map_cons, serialize, List.map_cons, List.flatten_cons,
      headerLine] at length
    simp at length

/-- Text and index stay in step exactly when no message with headers is copy-constructed or
cleared. Then what is sent is what is iterated, an assigned copy is like its original, a
constructed one is when there are no headers, and so is a cleared message empty. -/
theorem headers_in_step (path : Reaches step [] ops s) (fits : Meets step Fits [] ops) :
    (Always step InStep [] ops ↔ Meets step Careful [] ops) ∧
    (Meets step Careful [] ops → ∀ slot ∈ s, slot.live = true → slot.moved = false →
      slot.message.headers = serialize slot.message.headerList ∧
      (∀ m : Message, Same (m.copyAssign slot.message) slot.message) ∧
      (Same slot.message.copyConstruct slot.message ↔ slot.message.headers = []) ∧
      slot.message.clear.headerList = [] ∧
      (slot.message.clear.headers = [] ↔ slot.message.headers = [])) := by
  have kept : Meets step Careful [] ops → Always step InStep [] ops := by
    intro careful
    exact always_of_meets step_inStep (careful.both fits) nofun
  have shows : Always step InStep [] ops → Meets step Careful [] ops :=
    meets_of_always (fun _ moved after => careful_of_inStep moved after) path
  refine ⟨⟨shows, kept⟩, fun careful slot member live specified => ?_⟩
  have all := kept careful
  rw [← List.append_nil ops] at all
  have inStep := all.reached path slot member live specified
  refine ⟨inStep.text, fun m => copyAssign_same m _, ?_, rfl, Iff.rfl⟩
  rw [copyConstruct_same, hpairs_eq_nil inStep]

/-- A header is added, the message is moved and assigned to an empty copy. -/
theorem headers_in_step_moved :
    let ops : List MessageOp := [.construct 1 [] 200, .copyConstruct 0, .addHeader 0 (ascii "a") (ascii " b "),
      .moveConstruct 0 {}, .copyAssign 1 2, .jsonBody 1 (ascii "1")]
    ∃ s slot, Reaches step [] ops s ∧ slot ∈ s ∧
      (Always step InStep [] ops ↔ Meets step Careful [] ops) ∧
      slot.message.headers = serialize slot.message.headerList ∧
      slot.message.headers = ascii "a: b\r\nContent-Type: application/json\r\n" := by
  intro ops
  have path : Reaches step [] ops _ := run_iff_reaches.mp rfl
  have fits : Meets step Fits [] ops := by decide
  have careful : Meets step Careful [] ops := by decide
  obtain ⟨exactly, sends⟩ := headers_in_step path fits
  refine ⟨_, _, path, List.getElem_mem (n := 1) (by decide), exactly, ?_, by decide⟩
  exact (sends careful _ (List.getElem_mem (n := 1) (by decide)) rfl rfl).1

/-- A message with a header loses its index in a copy and keeps its text in `clear`. -/
theorem copy_loses_index :
    ∃ s copy cleared, Reaches step [] [.construct 1 [] 200, .addHeader 0 (ascii "a") (ascii "b"),
      .copyConstruct 0, .clear 0] s ∧ s = [cleared, copy] ∧ ¬InStep s ∧
      copy.message.headers = ascii "a: b\r\n" ∧ copy.message.headerList = [] ∧
      cleared.message.headers = ascii "a: b\r\n" ∧ cleared.message.headerList = [] := by
  refine ⟨_, _, _, run_iff_reaches.mp rfl, rfl, ?_, by decide, by decide, by decide, by decide⟩
  intro inStep
  have text := (inStep _ List.mem_cons_self rfl rfl).text
  exact absurd text (by decide)

end Messages
end Cotamer.Http
