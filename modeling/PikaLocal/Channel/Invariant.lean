import PikaLocal.Channel.Basic

/-! The representation invariant of `bounded_channel` and the operations that keep it. The
move assignment is the one that does not: it leaves `rhs.size_` behind without a buffer. -/
namespace PikaLocal.Channel
open BoundedChannel

variable {α : Type}

/-- `buffer_` owns exactly `size_` slots, `head_` and `tail_` index into them, and a channel
without slots is closed. -/
structure Valid (ch : BoundedChannel α) : Prop where
  owns : ch.buffer.length = ch.size.toNat
  head_lt : 0 < ch.size.toNat → ch.head.toNat < ch.size.toNat
  tail_lt : 0 < ch.size.toNat → ch.tail.toNat < ch.size.toNat
  closed_of_zero : ch.size.toNat = 0 → ch.closed = true

instance (ch : BoundedChannel α) : Decidable (Valid ch) :=
  decidable_of_iff (ch.buffer.length = ch.size.toNat ∧
      (0 < ch.size.toNat → ch.head.toNat < ch.size.toNat) ∧
      (0 < ch.size.toNat → ch.tail.toNat < ch.size.toNat) ∧
      (ch.size.toNat = 0 → ch.closed = true))
    ⟨fun ⟨a, b, c, d⟩ => ⟨a, b, c, d⟩, fun ⟨a, b, c, d⟩ => ⟨a, b, c, d⟩⟩

variable {ch : BoundedChannel α}

theorem Valid.size_pos (h : Valid ch) (hc : ch.closed = false) : 0 < ch.size.toNat := by
  rcases Nat.eq_zero_or_pos ch.size.toNat with h0 | h0
  · simp [h.closed_of_zero h0] at hc
  · exact h0

theorem boundedChannel_valid [Inhabited α] {size : SizeT} (h : size.toNat + 1 < 2 ^ 64) :
    Valid (boundedChannel (α := α) size) := by
  have hs : (size + 1).toNat = size.toNat + 1 := by bv_omega
  constructor <;> simp [boundedChannel, hs]
  omega

theorem get_valid (h : Valid ch) (val : Option α) : Valid (ch.get val).2 := by
  rcases get_snd val with he | ⟨he, hc⟩ <;> rw [he]
  · exact h
  · exact ⟨h.owns, fun _ => ch.advance_lt (h.head_lt (h.size_pos hc)), h.tail_lt,
      h.closed_of_zero⟩

theorem set_valid (h : Valid ch) (t : α) : Valid (ch.set t).2 := by
  rcases set_snd t with he | ⟨he, hc⟩ <;> rw [he]
  · exact h
  · exact ⟨by simpa using h.owns, h.head_lt,
      fun _ => ch.advance_lt (h.tail_lt (h.size_pos hc)), h.closed_of_zero⟩

theorem close_valid (h : Valid ch) : Valid ch.close.2 := by
  unfold BoundedChannel.close
  split
  · exact h
  · exact ⟨h.owns, h.head_lt, h.tail_lt, fun _ => rfl⟩

theorem moveConstruct_valid (h : Valid ch) :
    Valid (moveConstruct ch).1 ∧ Valid (moveConstruct ch).2 :=
  ⟨h, ⟨rfl, fun h0 => absurd h0 (by simp [moveConstruct]),
    fun h0 => absurd h0 (by simp [moveConstruct]), fun _ => rfl⟩⟩

theorem moveAssignSelf_valid (h : Valid ch) : Valid (moveAssignSelf ch) :=
  ⟨h.owns, h.head_lt, h.tail_lt, fun _ => rfl⟩

/-- Under the invariant `get`, `set` and the destructor only touch allocated slots. -/
theorem get_defined (h : Valid ch) (val : Option α) : (ch.get val).1 ≠ .undefined := by
  unfold BoundedChannel.get
  split_ifs with hc
  · simp
  · simp
  · have hl : ch.head.toNat < ch.buffer.length :=
      h.owns ▸ h.head_lt (h.size_pos (by simpa using hc))
    split
    · simp
    · simp [List.getElem?_eq_getElem hl]

theorem set_defined (h : Valid ch) (t : α) : (ch.set t).1 ≠ .undefined := by
  unfold BoundedChannel.set
  split_ifs with hc hf hl
  · simp
  · simp
  · simp
  · exact absurd (h.owns ▸ h.tail_lt (h.size_pos (by simpa using hc))) hl

theorem destroy_defined (h : Valid ch) : ch.destroy.1 ≠ .undefined := by
  simp [destroy, h.owns]

/-- After `b = std::move(a)` the moved-from `a` keeps `size_ = 2` without a buffer, and its
destructor walks into the missing slots. `bounded_channel(2^64 - 1)` wraps `size_` to zero on
an open channel, and `set` then writes past its empty buffer. -/
theorem moveAssign_breaks_valid :
    ¬ Valid (moveAssign (boundedChannel 1) (boundedChannel 1 : BoundedChannel ℕ)).2 ∧
      (moveAssign (boundedChannel 1) (boundedChannel 1 : BoundedChannel ℕ)).2.destroy.1 =
        .undefined ∧
      ¬ Valid (boundedChannel (-1) : BoundedChannel ℕ) ∧
      ((boundedChannel (-1) : BoundedChannel ℕ).set 7).1 = .undefined := by
  decide

end PikaLocal.Channel
