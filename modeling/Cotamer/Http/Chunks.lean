import Cotamer.Chunked

/-! The chunks of a response. The size of a chunk is written in decimal, and the
peer reads it in hexadecimal. -/
namespace Cotamer.Http
open Chunked

/-- What `send_response_chunk` adds to the bytes sent so far. -/
def sendResponseChunk (out str : List UInt8) : List UInt8 :=
  let lenline := decimal str.length ++ [cr, lf]
  out ++ lenline ++ str ++ [cr, lf]

def sendResponseEndChunk (out : List UInt8) : List UInt8 := out ++ [digit 0, cr, lf, cr, lf]

/-- The bytes of a body sent in pieces. -/
def sendResponseChunks (ss : List (List UInt8)) : List UInt8 :=
  sendResponseEndChunk (ss.foldl sendResponseChunk [])

/-- The peer decodes the pieces, and nothing is left. -/
def Recovered (ss : List (List UInt8)) : Prop := decode (sendResponseChunks ss) = some (ss.flatten, [])

instance (ss : List (List UInt8)) : Decidable (Recovered ss) := inferInstanceAs (Decidable (_ = _))

variable {ss : List (List UInt8)} {s out body : List UInt8} {fuel : Nat}

/-- The bytes of one chunk after the other. -/
def chunks : List (List UInt8) → List UInt8
  | [] => decimal 0 ++ cr :: lf :: cr :: lf :: []
  | s :: ss => decimal s.length ++ cr :: lf :: (s ++ cr :: lf :: chunks ss)

theorem foldl_chunks (ss : List (List UInt8)) (out : List UInt8) :
    sendResponseEndChunk (ss.foldl sendResponseChunk out) = out ++ chunks ss := by
  induction ss generalizing out with
  | nil =>
      rw [List.foldl_nil, sendResponseEndChunk, chunks, decimal]
      rfl
  | cons s ss ih =>
      rw [List.foldl_cons, ih, sendResponseChunk, chunks]
      simp

theorem length_chunks (ss : List (List UInt8)) : ss.length < (chunks ss).length := by
  induction ss with
  | nil =>
      rw [chunks, List.length_append]
      simp
  | cons s ss ih =>
      rw [chunks]
      simp only [List.length_append, List.length_cons]
      omega

/-- Pieces of at most nine bytes, none of them empty, are decoded. -/
theorem decodeFrom_chunks (small : ∀ s ∈ ss, 1 ≤ s.length ∧ s.length ≤ 9) (enough : ss.length < fuel) :
    decodeFrom fuel (chunks ss) = some (ss.flatten, []) := by
  induction ss generalizing fuel with
  | nil =>
      obtain ⟨fuel, rfl⟩ := Nat.exists_eq_succ_of_ne_zero (Nat.ne_of_gt enough)
      exact decodeFrom_zero fuel []
  | cons s ss ih =>
      obtain ⟨fuel, rfl⟩ := Nat.exists_eq_succ_of_ne_zero (Nat.ne_of_gt (Nat.zero_lt_of_lt enough))
      have here := small s (List.mem_cons_self ..)
      have rest : decodeFrom fuel (chunks ss) = some (ss.flatten, []) :=
        ih (fun s member => small s (List.mem_cons_of_mem _ member)) (Nat.lt_of_succ_lt_succ enough)
      rw [chunks, decodeFrom_chunk fuel ⟨here.1, Nat.lt_succ_of_le here.2⟩, rest]
      rfl

/-- A body without a carriage return is decoded only when their sizes have one
digit: a size read too large puts a carriage return into the body, and an empty
piece ends it. -/
theorem chunks_decoded (decoded : decodeFrom fuel (chunks ss) = some (body, [])) (clean : cr ∉ body) :
    ∀ s ∈ ss, 1 ≤ s.length ∧ s.length ≤ 9 := by
  induction ss generalizing fuel body with
  | nil => exact fun s member => absurd member (List.not_mem_nil)
  | cons s ss ih =>
      have short : s.length < 10 := by
        by_contra long
        exact clean (decodeFrom_long (Nat.le_of_not_lt long) decoded)
      cases fuel with
      | zero => contradiction
      | succ fuel =>
          rw [chunks] at decoded
          have nonempty : 0 < s.length := by
            by_contra empty
            have none := List.eq_nil_of_length_eq_zero (Nat.eq_zero_of_not_pos empty)
            subst none
            rw [List.length_nil, List.nil_append, decodeFrom_zero] at decoded
            have left := (Prod.mk.inj (Option.some.inj decoded)).2
            have length := length_chunks ss
            rw [left] at length
            exact absurd length (Nat.not_lt_zero _)
          rw [decodeFrom_chunk fuel ⟨nonempty, short⟩] at decoded
          obtain ⟨⟨more, left⟩, rest, eq⟩ := Option.map_eq_some_iff.mp decoded
          cases eq
          rw [List.mem_append, not_or] at clean
          have tail := ih rest clean.2
          rw [List.forall_mem_cons]
          exact ⟨⟨nonempty, Nat.le_of_lt_succ short⟩, tail⟩

theorem recovered_iff : Recovered ss ↔ decode (chunks ss) = some (ss.flatten, []) := by
  rw [Recovered, sendResponseChunks, foldl_chunks, List.nil_append]

theorem recovered_small (small : ∀ s ∈ ss, 1 ≤ s.length ∧ s.length ≤ 9) : Recovered ss :=
  recovered_iff.mpr (decodeFrom_chunks small (length_chunks ss))

theorem recovered_plain (plain : ∀ s ∈ ss, cr ∉ s) (recovered : Recovered ss) :
    ∀ s ∈ ss, 1 ≤ s.length ∧ s.length ≤ 9 := by
  apply chunks_decoded (recovered_iff.mp recovered)
  rw [List.mem_flatten]
  rintro ⟨s, member, inside⟩
  exact plain s member inside

theorem zeros_plain (ns : List Nat) : ∀ s ∈ ns.map fun n => List.replicate n (0 : UInt8), cr ∉ s := by
  rw [List.forall_mem_map]
  intro n _ inside
  exact absurd (List.eq_of_mem_replicate inside) (by decide)

theorem recovered_plain_iff (plain : ∀ s ∈ ss, cr ∉ s) :
    Recovered ss ↔ ∀ s ∈ ss, 1 ≤ s.length ∧ s.length ≤ 9 :=
  ⟨recovered_plain plain, recovered_small⟩

/-- Pieces are recovered whatever their bytes, as long as they have the sizes of `ss`,
exactly when each of `ss` has between one and nine bytes; and so is `ss` itself, when no
carriage return is in it. -/
theorem chunks_round_trip (ss : List (List UInt8)) :
    ((∀ ts : List (List UInt8), ts.map List.length = ss.map List.length → Recovered ts) ↔
      ∀ s ∈ ss, 1 ≤ s.length ∧ s.length ≤ 9) ∧
    ((∀ s ∈ ss, cr ∉ s) → (Recovered ss ↔ ∀ s ∈ ss, 1 ≤ s.length ∧ s.length ≤ 9)) := by
  refine ⟨⟨fun all => ?_, fun small ts sizes => ?_⟩, recovered_plain_iff⟩
  · have recovered := all ((ss.map List.length).map fun n => List.replicate n 0) (by simp [Function.comp_def])
    have small := recovered_plain (zeros_plain _) recovered
    intro s member
    have here := small (List.replicate s.length 0) (List.mem_map_of_mem (List.mem_map_of_mem member))
    rw [List.length_replicate] at here
    exact here
  · apply recovered_small
    intro t member
    obtain ⟨s, inside, same⟩ := List.mem_map.mp (sizes ▸ List.mem_map_of_mem (f := List.length) member)
    rw [← same]
    exact small s inside

/-- A piece of ten bytes is read as one of sixteen. -/
theorem ten_bytes_lost : ¬Recovered [[97, 98, 99, 100, 101, 102, 103, 104, 105, 106]] := by
  intro recovered
  have small := recovered_plain (by decide) recovered
  exact absurd (small _ (List.mem_singleton_self _)).2 (by decide)

end Cotamer.Http
