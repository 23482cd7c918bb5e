import Cotamer.Http.Cuts

/-! Parsers that go through their input byte by byte. What `receive` relies on is
that `llhttp` is one of them; a small one reads requests without a body. -/
namespace Cotamer.Http
open Chunked Spans

variable {σ : Type}

/-- `llhttp` as an automaton over the bytes. Feeding `a` and then `b` is feeding
`a ++ b`, up to cut spans, unless it stops within `a`; and it stops at once when a
callback asks it to. -/
structure Parser.Streaming (P : Parser σ) : Prop where
  stopped : ∀ st a b, (P.execute st a).err ≠ HPE_OK → P.execute st (a ++ b) = P.execute st a
  within : ∀ st a, (P.execute st a).err ≠ HPE_OK → (P.execute st a).errorPos ≤ a.length
  goes : ∀ st a b, (P.execute st a).err = HPE_OK →
    let r := P.execute st a
    let r' := P.execute r.parser b
    let both := P.execute st (a ++ b)
    Cuts both.calls (r.calls ++ r'.calls) ∧ both.parser = r'.parser ∧ both.err = r'.err ∧
      (r'.err ≠ HPE_OK → both.errorPos = a.length + r'.errorPos)
  obeys : ∀ st a, (P.execute st a).err = HPE_OK →
    ∀ call ∈ (P.execute st a).calls, call.result = HPE_OK

/-- The machine behind a parser: the callbacks that one byte leads to. -/
structure Machine (σ : Type) where
  step : σ → UInt8 → σ × List Call
  status : σ → Status

/-- Two callbacks that continue one span are made as one. -/
def joinCall : Call → List Call → List Call
  | .span k s, .span k' s' :: rest =>
    if k = k' then .span k (s ++ s') :: rest else .span k s :: .span k' s' :: rest
  | call, rest => call :: rest

def join (calls : List Call) : List Call := calls.foldr joinCall []

namespace Machine

/-- Bytes up to the first at which a callback asks for a pause. -/
def run (M : Machine σ) : σ → Bytes → Outcome σ
  | st, [] => ⟨[], st, HPE_OK, 0⟩
  | st, c :: cs =>
    let (st', calls) := M.step st c
    if calls.all fun call => call.result = HPE_OK then
      let r := run M st' cs
      ⟨calls ++ r.calls, r.parser, r.err, r.errorPos + 1⟩
    else ⟨calls, st', HPE_PAUSED, 1⟩

def parser (M : Machine σ) : Parser σ where
  execute st bytes := { M.run st bytes with calls := join (M.run st bytes).calls }
  unwound st _ := st
  room := 2 ^ 63 - 2
  resume := id
  resumeAfterUpgrade := id
  setError st _ := st
  status := M.status

end Machine

variable {M : Machine σ} {st : σ} {a b : Bytes} {cs : List Call}

theorem joinCall_cuts (call : Call) (cs : List Call) : Cuts (joinCall call cs) (call :: cs) := by
  unfold joinCall
  split
  · split
    · rename_i same
      subst same
      exact Relation.EqvGen.rel _ _ (Cut.split [] _ _ _ _)
    · exact Cuts.refl _
  · exact Cuts.refl _

theorem join_cuts (cs : List Call) : Cuts (join cs) cs := by
  induction cs with
  | nil => exact Cuts.refl _
  | cons call cs ih => exact (joinCall_cuts call (join cs)).trans ((Cuts.refl [call]).append ih)

/-- Joining adds nothing that asks for a pause. -/
theorem join_quiet (quiet : ∀ call ∈ cs, call.result = HPE_OK) :
    ∀ call ∈ join cs, call.result = HPE_OK := by
  induction cs with
  | nil => exact List.forall_mem_nil _
  | cons call cs ih =>
      have rest := ih fun other member => quiet other (List.mem_cons_of_mem _ member)
      have mine := quiet call List.mem_cons_self
      change ∀ other ∈ joinCall call (join cs), other.result = HPE_OK
      generalize join cs = joined at rest
      unfold joinCall
      split
      · split
        · rw [List.forall_mem_cons] at rest ⊢
          exact ⟨rfl, rest.2⟩
        · exact List.forall_mem_cons.mpr ⟨mine, rest⟩
      · exact List.forall_mem_cons.mpr ⟨mine, rest⟩

theorem run_stopped (error : (M.run st a).err ≠ HPE_OK) (b : Bytes) : M.run st (a ++ b) = M.run st a := by
  induction a generalizing st with
  | nil => exact absurd rfl error
  | cons c a ih =>
      simp only [List.cons_append, Machine.run] at error ⊢
      split
      · rename_i quiet
        rw [if_pos quiet] at error
        rw [ih error]
      · rfl

theorem run_goes (going : (M.run st a).err = HPE_OK) (b : Bytes) :
    M.run st (a ++ b) = { M.run (M.run st a).parser b with
      calls := (M.run st a).calls ++ (M.run (M.run st a).parser b).calls
      errorPos := a.length + (M.run (M.run st a).parser b).errorPos } := by
  induction a generalizing st with
  | nil => simp [Machine.run]
  | cons c a ih =>
      simp only [List.cons_append, Machine.run] at going ⊢
      split at going
      · rename_i quiet
        simp only [quiet, if_true, ih going, List.append_assoc, List.length_cons, Outcome.mk.injEq,
          true_and]
        omega
      · exact absurd going (by decide : HPE_PAUSED ≠ HPE_OK)

theorem run_quiet (going : (M.run st a).err = HPE_OK) :
    ∀ call ∈ (M.run st a).calls, call.result = HPE_OK := by
  induction a generalizing st with
  | nil => exact List.forall_mem_nil _
  | cons c a ih =>
      simp only [Machine.run] at going ⊢
      split at going
      · rename_i quiet
        rw [if_pos quiet]
        intro call member
        rcases List.mem_append.mp member with mine | later
        · simpa using List.all_eq_true.mp quiet call mine
        · exact ih going call later
      · exact absurd going (by decide : HPE_PAUSED ≠ HPE_OK)

theorem run_within (st : σ) (a : Bytes) : (M.run st a).errorPos ≤ a.length := by
  induction a generalizing st with
  | nil => exact Nat.le_refl _
  | cons c a ih =>
      simp only [Machine.run, List.length_cons]
      split
      · exact Nat.succ_le_succ (ih _)
      · exact Nat.succ_le_succ (Nat.zero_le _)

theorem Machine.streaming (M : Machine σ) : M.parser.Streaming where
  stopped st a b error := by
    simp only [Machine.parser, run_stopped error b]
  within st a _ := run_within st a
  goes st a b going := by
    have eq := run_goes (M := M) going b
    refine ⟨?_, ?_, ?_, fun _ => ?_⟩
    · simp only [Machine.parser, eq]
      exact (join_cuts _).trans ((join_cuts _).append (join_cuts _)).symm
    all_goals simp only [Machine.parser, eq]
  obeys st a going := join_quiet (run_quiet going)

/-! Requests without a body. -/

inductive Phase where
  | start
  | method
  | url
  | version
  | lineStart
  | name
  | valueStart
  | value
  | valueEnd
  | last
  deriving DecidableEq, Repr

def getStatus : Status := ⟨1, 1, 0, 1, HPE_OK, false⟩

/-- `GET` requests: a request line, headers, and an empty line. -/
def requestStep : Phase → UInt8 → Phase × List Call
  | .start, _ => (.method, [.messageBegin])
  | .method, c => (if c = space then .url else .method, [])
  | .url, c => if c = space then (.version, []) else (.url, [.span .url [c]])
  | .version, c => (if c = lf then .lineStart else .version, [])
  | .lineStart, c => if c = cr then (.last, []) else (.name, [.span .headerField [c]])
  | .name, c =>
    if c = colon then (.valueStart, [.headerFieldComplete]) else (.name, [.span .headerField [c]])
  | .valueStart, c =>
    if isHws c then (.valueStart, [])
    else if c = cr then (.valueEnd, [.headerValueComplete])
    else (.value, [.span .headerValue [c]])
  | .value, c =>
    if c = cr then (.valueEnd, [.headerValueComplete]) else (.value, [.span .headerValue [c]])
  | .valueEnd, _ => (.lineStart, [])
  | .last, _ => (.start, [.headersComplete getStatus 0, .messageComplete])

def requests : Machine Phase where
  step := requestStep
  status _ := getStatus

end Cotamer.Http
