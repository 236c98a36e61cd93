import PikaLocal.Errors

/-! `bounded_channel<T>` of `channel_mpmc.hpp`: a ring buffer of `size_` slots with the
indices `head_` and `tail_` and the flag `closed_`. Every member function holds the
channel's mutex for its whole body, so each call is one atomic step on these fields. -/
namespace PikaLocal.Channel

/-- `std::size_t` on the 64-bit targets. -/
abbrev SizeT := BitVec 64

structure BoundedChannel (α : Type) where
  head : SizeT
  tail : SizeT
  size : SizeT
  /-- The slots `buffer_` owns; none once the buffer was moved away. -/
  buffer : List α
  closed : Bool
  deriving DecidableEq, Repr

variable {α : Type}

namespace BoundedChannel

def isFull (ch : BoundedChannel α) (tail : SizeT) : Bool :=
  let numitems := ch.size + tail - ch.head
  if numitems < ch.size then numitems == ch.size - 1 else numitems - ch.size == ch.size - 1

def isEmpty (ch : BoundedChannel α) (head : SizeT) : Bool := head == ch.tail

/-- The index step `if (++i >= size_) i = 0;` shared by `get` and `set`. -/
def advance (ch : BoundedChannel α) (i : SizeT) : SizeT := if i + 1 ≥ ch.size then 0 else i + 1

/-- `bounded_channel(size)`: `size + 1` default-constructed slots and `head_ = tail_ = 0`.
Its assertion `size != 0` is the caller's obligation. -/
def boundedChannel [Inhabited α] (size : SizeT) : BoundedChannel α where
  head := 0
  tail := 0
  size := size + 1
  buffer := List.replicate (size + 1).toNat default
  closed := false

/-- `get(val)`, where `val` is `none` for a null pointer and otherwise the caller's item.
It returns the flag together with the caller's item afterwards. -/
def get (ch : BoundedChannel α) (val : Option α) :
    Outcome (Bool × Option α) × BoundedChannel α :=
  if ch.closed then (.returned (false, val), ch)
  else if ch.isEmpty ch.head then (.returned (false, val), ch)
  else match val with
    | none => (.returned (true, none), ch)
    | some _ =>
      match ch.buffer[ch.head.toNat]? with
      | none => (.undefined, ch)
      | some v => (.returned (true, some v), { ch with head := ch.advance ch.head })

def set (ch : BoundedChannel α) (t : α) : Outcome Bool × BoundedChannel α :=
  if ch.closed then (.returned false, ch)
  else if ch.isFull ch.tail then (.returned false, ch)
  else if ch.tail.toNat < ch.buffer.length then
    (.returned true,
      { ch with buffer := ch.buffer.set ch.tail.toNat t, tail := ch.advance ch.tail })
  else (.undefined, ch)

/-- The exception `close` raises on a closed channel. -/
def closedTwice : Exception :=
  ⟨.invalidStatus, "pika::lcos::local::bounded_channel::close",
    "attempting to close an already closed channel"⟩

def close (ch : BoundedChannel α) : Outcome SizeT × BoundedChannel α :=
  if ch.closed then (.threw closedTwice, ch) else (.returned 0, { ch with closed := true })

def capacity (ch : BoundedChannel α) : SizeT := ch.size - 1

/-- `bounded_channel(bounded_channel&& rhs)`: the new object and what is left in `rhs`. -/
def moveConstruct (rhs : BoundedChannel α) : BoundedChannel α × BoundedChannel α :=
  (rhs, { rhs with size := 0, buffer := [], closed := true })

/-- `lhs = std::move(rhs)` on two distinct objects: `lhs` and `rhs` afterwards. -/
def moveAssign (lhs rhs : BoundedChannel α) : BoundedChannel α × BoundedChannel α :=
  let moved : BoundedChannel α :=
    { lhs with head := rhs.head, tail := rhs.tail, size := rhs.size,
               buffer := rhs.buffer, closed := rhs.closed }
  (moved, { rhs with buffer := [], closed := true })

/-- `ch = std::move(ch)`: the `unique_ptr` keeps its buffer, and `rhs.closed_ = true` closes it. -/
def moveAssignSelf (ch : BoundedChannel α) : BoundedChannel α := { ch with closed := true }

/-- `~bounded_channel()`: the teardown loop visits slots `0 .. size_ - 1`, then an open
channel is closed. -/
def destroy (ch : BoundedChannel α) : Outcome Unit × BoundedChannel α :=
  if ch.size.toNat ≤ ch.buffer.length then
    (.returned (), if ch.closed then ch else ch.close.2)
  else (.undefined, ch)

@[simp] theorem moveConstruct_fst (rhs : BoundedChannel α) : (moveConstruct rhs).1 = rhs := rfl

@[simp] theorem moveAssign_fst (lhs rhs : BoundedChannel α) : (moveAssign lhs rhs).1 = rhs := rfl

variable {ch : BoundedChannel α}

/-- A call of `get` leaves the channel as it was, or advances `head_` of an open channel. -/
theorem get_snd (val : Option α) :
    (ch.get val).2 = ch ∨
      (ch.get val).2 = { ch with head := ch.advance ch.head } ∧ ch.closed = false := by
  unfold get
  split_ifs with hc
  · exact .inl rfl
  · exact .inl rfl
  · split
    · exact .inl rfl
    · split
      · exact .inl rfl
      · exact .inr ⟨rfl, by simpa using hc⟩

/-- A call of `set` leaves the channel as it was, or writes slot `tail_` of an open channel
and advances `tail_`. -/
theorem set_snd (t : α) :
    (ch.set t).2 = ch ∨
      (ch.set t).2 =
        { ch with buffer := ch.buffer.set ch.tail.toNat t, tail := ch.advance ch.tail } ∧
      ch.closed = false := by
  unfold set
  split_ifs with hc <;> simp_all

/-- A `get` that returns `false` leaves the channel and the caller's item as they were. -/
theorem get_false (val v : Option α) (h : (ch.get val).1 = .returned (false, v)) :
    v = val ∧ (ch.get val).2 = ch := by
  unfold get at h ⊢
  split_ifs at h ⊢
  · simp_all
  · simp_all
  · rcases val with _ | w
    · simp at h
    · simp only at h
      split at h <;> simp at h

/-- A `set` that returns `false` leaves the channel as it was. -/
theorem set_false (t : α) (h : (ch.set t).1 = .returned false) : (ch.set t).2 = ch := by
  unfold set at h ⊢
  split_ifs at h ⊢ <;> simp_all

@[simp] theorem get_size (val : Option α) : (ch.get val).2.size = ch.size := by
  rcases get_snd val with h | ⟨h, -⟩ <;> rw [h]

@[simp] theorem get_closed (val : Option α) : (ch.get val).2.closed = ch.closed := by
  rcases get_snd val with h | ⟨h, -⟩ <;> rw [h]

@[simp] theorem set_size (t : α) : (ch.set t).2.size = ch.size := by
  rcases set_snd t with h | ⟨h, -⟩ <;> rw [h]

@[simp] theorem set_closed (t : α) : (ch.set t).2.closed = ch.closed := by
  rcases set_snd t with h | ⟨h, -⟩ <;> rw [h]

/-- Below `2^64 - 1` the increment does not wrap: `advance` is the one-step circular index. -/
theorem advance_toNat (ch : BoundedChannel α) {i : SizeT} (hi : i.toNat < ch.size.toNat) :
    (ch.advance i).toNat = if i.toNat + 1 < ch.size.toNat then i.toNat + 1 else 0 := by
  unfold advance
  split <;> split <;> bv_omega

theorem advance_lt (ch : BoundedChannel α) {i : SizeT} (hi : i.toNat < ch.size.toNat) :
    (ch.advance i).toNat < ch.size.toNat := by
  rw [advance_toNat ch hi]
  split <;> omega

end BoundedChannel

end PikaLocal.Channel
