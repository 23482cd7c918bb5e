import Cotamer.Stream.Frames

/-! The buffer of a `message_stream`. An access outside of the memory it is meant for
gives no result, and the specifications below say that none is made. -/
namespace Cotamer.Stream

/-- `memcpy` out of memory. -/
def load (memory : List UInt8) (i n : Nat) : Option (List UInt8) :=
  if i + n ≤ memory.length then some ((memory.drop i).take n) else none

/-- `memcpy` into memory. -/
def store (memory : List UInt8) (i : Nat) (data : List UInt8) : Option (List UInt8) :=
  if i + data.length ≤ memory.length then some (memory.take i ++ data ++ memory.drop (i + data.length)) else none

/-- `buf_`, `pos_` and `len_`; `capacity_` is the length of `buf_`. -/
structure Buffer where
  memory : List UInt8 := List.replicate 4096 0
  pos : Nat := 0
  len : Nat := 0
  deriving DecidableEq, Repr

namespace Buffer

def capacity (b : Buffer) : Nat := b.memory.length

/-- The bytes that are in the buffer. -/
def content (b : Buffer) : List UInt8 := (b.memory.drop b.pos).take b.len

/-- A new buffer of twice the size. What new memory has in it is not specified, and is
never read. -/
def double (b : Buffer) : Option Buffer :=
  (load b.memory b.pos b.len).bind fun data =>
    (store (List.replicate (b.capacity * 2) 0) 0 data).map fun memory => { memory, pos := 0, len := b.len }

def recycle (b : Buffer) : Buffer := if b.len = 0 then { b with pos := 0 } else b

/-- The loop of `send` that makes room for `n` bytes. -/
def expand (n : Nat) : Nat → Buffer → Option Buffer
  | 0, b => if b.pos + b.len + n ≤ b.capacity then some b else none
  | fuel + 1, b => if b.capacity < b.pos + b.len + n then b.double.bind (expand n fuel) else some b

/-- `send` after its wait: the length and then the message. -/
def append (b : Buffer) (m : List UInt8) : Option Buffer :=
  (b.recycle.expand (m.length + 4) (b.len + m.length + 4)).bind fun b =>
    (store b.memory (b.pos + b.len) (word m.length)).bind fun memory =>
      (store memory (b.pos + b.len + 4) m).map fun memory => { b with memory, len := b.len + (m.length + 4) }

/-- Bytes are taken off the front. -/
def consume (b : Buffer) (k : Nat) : Buffer := { b with pos := b.pos + k, len := b.len - k }

/-- `reader_loop` before it reads. -/
def reserve (b : Buffer) : Option Buffer :=
  let b := b.recycle
  if b.capacity < b.pos + b.len + 512 then b.double else some b

/-- The count that `reader_loop` reads at most. -/
def room (b : Buffer) : Nat := b.capacity - (b.pos + b.len)

/-- What `::read` has put behind the data. -/
def fill (b : Buffer) (data : List UInt8) : Option Buffer :=
  (store b.memory (b.pos + b.len) data).map fun memory => { b with memory, len := b.len + data.length }

/-- `first_message_length`, in the arithmetic of `uint32_t`. -/
def firstMessageLength (b : Buffer) : Option Nat :=
  if b.len < 4 then some (2 ^ 64 - 1)
  else (load b.memory b.pos 4).map fun header => (number header + 4) % 2 ^ 32

/-- `recv` after its wait. A length below four wraps around. -/
def remove (b : Buffer) (fml : Nat) : Option (List UInt8 × Buffer) :=
  let b := b.consume fml
  if fml < 4 then none
  else (load b.memory (b.pos - (fml - 4)) (fml - 4)).map fun m => (m, b)

structure Valid (b : Buffer) : Prop where
  inside : b.pos + b.len ≤ b.capacity
  large : 512 ≤ b.capacity

variable {b b' : Buffer} {m data : List UInt8} {k n fuel : Nat}

theorem initial_valid : ({} : Buffer).Valid := by
  have size : ({} : Buffer).capacity = 4096 := List.length_replicate
  constructor
  · rw [size]
    exact Nat.zero_le _
  · rw [size]
    decide

theorem load_content (valid : b.Valid) : load b.memory b.pos b.len = some b.content := by
  have inside := valid.inside
  rw [capacity] at inside
  rw [load, if_pos inside, content]

theorem length_content (valid : b.Valid) : b.content.length = b.len := by
  have inside := valid.inside
  rw [capacity] at inside
  simp only [content, List.length_take, List.length_drop]
  omega

/-- What is stored behind a prefix is read behind it. -/
theorem store_spec (memory data : List UInt8) {i j : Nat} (before : j ≤ i) (fits : i + data.length ≤ memory.length) :
    ∃ memory', store memory i data = some memory' ∧ memory'.length = memory.length ∧
      (memory'.drop j).take (i - j + data.length) = (memory.drop j).take (i - j) ++ data := by
  refine ⟨_, if_pos fits, ?_, ?_⟩
  · simp only [List.length_append, List.length_take, List.length_drop]
    omega
  · have front : (memory.take i).length = i := by
      rw [List.length_take]
      omega
    rw [List.append_assoc, List.drop_append_of_le_length (by omega), List.drop_take,
      ← List.append_assoc]
    apply List.take_left'
    simp only [List.length_append, List.length_take, List.length_drop]
    omega

theorem double_spec (valid : b.Valid) : ∃ b', b.double = some b' ∧ b'.Valid ∧ b'.pos = 0 ∧ b'.len = b.len ∧
    b'.capacity = b.capacity * 2 ∧ b'.content = b.content := by
  have inside := valid.inside
  have large := valid.large
  have length := length_content valid
  have fits : 0 + b.content.length ≤ (List.replicate (b.capacity * 2) (0 : UInt8)).length := by
    rw [length, List.length_replicate]
    omega
  obtain ⟨memory, stored, size, same⟩ := store_spec _ _ (Nat.le_refl 0) fits
  rw [List.length_replicate] at size
  refine ⟨⟨memory, 0, b.len⟩, ?_, ⟨?_, ?_⟩, rfl, rfl, size, ?_⟩
  · simp only [double, load_content valid, Option.bind_some, stored, Option.map_some]
  · simp only [capacity] at size inside ⊢
    omega
  · simp only [capacity] at size large ⊢
    omega
  · rw [length, Nat.sub_zero, Nat.zero_add, List.take_zero, List.nil_append] at same
    exact same

theorem recycle_spec (valid : b.Valid) : b.recycle.Valid ∧ b.recycle.len = b.len ∧ b.recycle.content = b.content ∧
    b.recycle.capacity = b.capacity := by
  unfold recycle
  split
  · rename_i empty
    refine ⟨⟨?_, valid.large⟩, rfl, ?_, rfl⟩
    · simp [empty]
    · simp [content, empty]
  · exact ⟨valid, rfl, rfl, rfl⟩

/-- From an aligned buffer the loop ends as soon as the doubled size suffices. -/
theorem expand_aligned (valid : b.Valid) (aligned : b.pos = 0) (enough : b.len + n ≤ b.capacity * 2 ^ fuel) :
    ∃ b', b.expand n fuel = some b' ∧ b'.Valid ∧ b'.len = b.len ∧ b'.content = b.content ∧
      b'.pos + b'.len + n ≤ b'.capacity := by
  induction fuel generalizing b with
  | zero =>
      have fits : b.pos + b.len + n ≤ b.capacity := by omega
      exact ⟨b, if_pos fits, valid, rfl, rfl, fits⟩
  | succ fuel ih =>
      rw [expand]
      split
      · obtain ⟨b', doubled, valid', aligned', len, capacity, same⟩ := double_spec valid
        have enough' : b'.len + n ≤ b'.capacity * 2 ^ fuel := by
          rw [len, capacity, Nat.mul_assoc, ← Nat.pow_succ']
          exact enough
        obtain ⟨b'', expanded, valid'', len', same', fits⟩ := ih valid' aligned' enough'
        rw [doubled, Option.bind_some]
        exact ⟨b'', expanded, valid'', len'.trans len, same'.trans same, fits⟩
      · exact ⟨b, rfl, valid, rfl, rfl, by omega⟩

theorem expand_spec (valid : b.Valid) (positive : 0 < n) (fuel_eq : fuel = b.len + n) :
    ∃ b', b.expand n fuel = some b' ∧ b'.Valid ∧ b'.len = b.len ∧ b'.content = b.content ∧
      b'.pos + b'.len + n ≤ b'.capacity := by
  obtain ⟨fuel, rfl⟩ : ∃ k, fuel = k + 1 := ⟨fuel - 1, by omega⟩
  rw [expand]
  split
  · obtain ⟨b', doubled, valid', aligned, len, capacity, same⟩ := double_spec valid
    have enough : b'.len + n ≤ b'.capacity * 2 ^ fuel := by
      have power : fuel < 2 ^ fuel := Nat.lt_two_pow_self
      have large := valid'.large
      have scale : 512 * 2 ^ fuel ≤ b'.capacity * 2 ^ fuel := Nat.mul_le_mul_right _ large
      omega
    obtain ⟨b'', expanded, valid'', len', same', fits⟩ := expand_aligned valid' aligned enough
    rw [doubled, Option.bind_some]
    exact ⟨b'', expanded, valid'', len'.trans len, same'.trans same, fits⟩
  · exact ⟨b, rfl, valid, rfl, rfl, by omega⟩

/-- A message that is sent is behind what was in the buffer. -/
theorem append_spec (valid : b.Valid) (m : List UInt8) : ∃ b', b.append m = some b' ∧ b'.Valid ∧
    b'.len = b.len + (m.length + 4) ∧ b'.content = b.content ++ frame m := by
  obtain ⟨valid', len, same, _⟩ := recycle_spec valid
  have fuel : b.len + m.length + 4 = b.recycle.len + (m.length + 4) := by
    rw [len, Nat.add_assoc]
  obtain ⟨e, expanded, valid'', len', same', fits⟩ := expand_spec valid' (Nat.succ_pos _) fuel
  have memory : e.pos + e.len + (m.length + 4) ≤ e.memory.length := fits
  obtain ⟨memory₁, stored₁, size₁, data₁⟩ := store_spec e.memory (word m.length) (j := e.pos)
    (i := e.pos + e.len) (by omega) (by rw [length_word]; omega)
  obtain ⟨memory₂, stored₂, size₂, data₂⟩ := store_spec memory₁ m (j := e.pos)
    (i := e.pos + e.len + 4) (by omega) (by omega)
  refine ⟨{ e with memory := memory₂, len := e.len + (m.length + 4) }, ?_, ⟨?_, ?_⟩, ?_, ?_⟩
  · simp only [append, expanded, Option.bind_some, stored₁, stored₂, Option.map_some]
  · change e.pos + (e.len + (m.length + 4)) ≤ memory₂.length
    omega
  · have large := valid''.large
    simp only [capacity] at large ⊢
    omega
  · change e.len + (m.length + 4) = _
    rw [len', len]
  · have front : (e.memory.drop e.pos).take e.len = b.content := same'.trans same
    rw [Nat.add_sub_cancel_left, front] at data₁
    have i₂ : e.pos + e.len + 4 - e.pos = e.len + (word m.length).length := by
      rw [length_word]
      omega
    rw [i₂, data₁, length_word, Nat.add_assoc, Nat.add_comm 4, List.append_assoc] at data₂
    exact data₂

theorem consume_spec (valid : b.Valid) (enough : k ≤ b.len) : (b.consume k).Valid ∧
    (b.consume k).len = b.len - k ∧ (b.consume k).content = b.content.drop k := by
  refine ⟨⟨?_, valid.large⟩, rfl, ?_⟩
  · have inside := valid.inside
    simp only [consume, capacity] at inside ⊢
    omega
  · simp only [consume, content, List.drop_take, List.drop_drop]

/-- `reader_loop` always has room to read into: an empty read would be taken for the end. -/
theorem reserve_spec (valid : b.Valid) : ∃ b', b.reserve = some b' ∧ b'.Valid ∧ b'.len = b.len ∧
    b'.content = b.content ∧ 512 ≤ b'.room := by
  obtain ⟨valid', len, same, _⟩ := recycle_spec valid
  unfold reserve
  dsimp only
  split
  · obtain ⟨b', doubled, valid'', aligned, len', capacity, same'⟩ := double_spec valid'
    have inside := valid'.inside
    have large := valid'.large
    refine ⟨b', doubled, valid'', len'.trans len, same'.trans same, ?_⟩
    simp only [room]
    omega
  · refine ⟨_, rfl, valid', len, same, ?_⟩
    simp only [room]
    omega

theorem fill_spec (valid : b.Valid) (few : data.length ≤ b.room) : ∃ b', b.fill data = some b' ∧ b'.Valid ∧
    b'.len = b.len + data.length ∧ b'.content = b.content ++ data := by
  have inside := valid.inside
  have large := valid.large
  simp only [room, capacity] at few inside large
  obtain ⟨memory, stored, size, same⟩ := store_spec b.memory data (j := b.pos)
    (i := b.pos + b.len) (by omega) (by omega)
  refine ⟨{ b with memory, len := b.len + data.length }, ?_, ⟨?_, ?_⟩, rfl, ?_⟩
  · simp only [fill, stored, Option.map_some]
  · simp only [capacity]
    omega
  · simp only [capacity]
    omega
  · rw [Nat.add_sub_cancel_left] at same
    exact same

theorem firstMessageLength_spec (valid : b.Valid) : b.firstMessageLength =
    some (if b.len < 4 then 2 ^ 64 - 1 else (number (b.content.take 4) + 4) % 2 ^ 32) := by
  have inside := valid.inside
  unfold firstMessageLength
  split
  · rfl
  · simp only [capacity] at inside
    have header : load b.memory b.pos 4 = some (b.content.take 4) := by
      rw [load, if_pos (by omega), content, List.take_take, Nat.min_eq_left (by omega)]
    rw [header, Option.map_some]

theorem remove_spec (valid : b.Valid) (enough : k + 4 ≤ b.len) : ∃ b', b.remove (k + 4) =
    some ((b.content.drop 4).take k, b') ∧ b'.Valid ∧ b'.len = b.len - (k + 4) ∧
      b'.content = b.content.drop (k + 4) := by
  obtain ⟨valid', len, same⟩ := consume_spec valid enough
  have inside := valid.inside
  simp only [capacity] at inside
  refine ⟨b.consume (k + 4), ?_, valid', len, same⟩
  have start : b.pos + (k + 4) - k = b.pos + 4 := by omega
  have small : ¬k + 4 < 4 := by omega
  simp only [remove, if_neg small, Nat.add_sub_cancel, consume, start]
  rw [load, if_pos (by omega), Option.map_some, content, List.drop_take, List.drop_drop, List.take_take,
    Nat.min_eq_left (by omega)]

end Buffer
end Cotamer.Stream
