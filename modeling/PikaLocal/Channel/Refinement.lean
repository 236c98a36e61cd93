import PikaLocal.Channel.Invariant

/-! `bounded_channel` refines a bounded FIFO queue. The queue a channel holds is read from
`head_` up to `tail_`; the simulation holds for every sequence of calls as long as
`size_ + tail_` stays below `2^64`. -/
namespace PikaLocal.Channel
open BoundedChannel

variable {α : Type}

/-- Slot `i` places after `head` in a ring of `size` slots; one wrap suffices for `i < size`. -/
def circularIndex (head i size : ℕ) : ℕ :=
  if head + i < size then head + i else head + i - size

namespace BoundedChannel

/-- The number of items between `head_` and `tail_`. -/
def count (ch : BoundedChannel α) : ℕ :=
  if ch.head.toNat ≤ ch.tail.toNat then ch.tail.toNat - ch.head.toNat
  else ch.size.toNat + ch.tail.toNat - ch.head.toNat

/-- The queue a channel holds: `buffer_[head_]`, the slot after it, and so on up to `tail_`. -/
def items [Inhabited α] (ch : BoundedChannel α) : List α :=
  (List.range ch.count).map fun i =>
    ch.buffer.getD (circularIndex ch.head.toNat i ch.size.toNat) default

@[simp] theorem length_items [Inhabited α] (ch : BoundedChannel α) :
    ch.items.length = ch.count := by
  simp [items]

variable {ch : BoundedChannel α}

theorem count_lt (h : Valid ch) (hp : 0 < ch.size.toNat) : ch.count < ch.size.toNat := by
  have := h.head_lt hp
  have := h.tail_lt hp
  unfold count
  split <;> omega

theorem isEmpty_iff (h : Valid ch) (hp : 0 < ch.size.toNat) :
    ch.isEmpty ch.head = true ↔ ch.count = 0 := by
  have := h.head_lt hp
  have := h.tail_lt hp
  unfold isEmpty count
  split <;> simp only [beq_iff_eq] <;> bv_omega

/-- A channel `set` finds full is full, even where `size_ + tail_` wraps. -/
theorem count_of_isFull (h : Valid ch) (hp : 0 < ch.size.toNat)
    (hF : ch.isFull ch.tail = true) : ch.count + 1 = ch.size.toNat := by
  have := h.head_lt hp
  have := h.tail_lt hp
  unfold isFull at hF
  unfold count
  dsimp only at hF
  split_ifs at hF ⊢ <;> simp only [beq_iff_eq] at hF <;> bv_omega

/-- While `size_ + tail_` stays below `2^64`, `set` finds every full channel full. -/
theorem isFull_of_count (h : Valid ch) (hp : 0 < ch.size.toNat)
    (hw : ch.size.toNat + ch.size.toNat ≤ 2 ^ 64) (hn : ch.count + 1 = ch.size.toNat) :
    ch.isFull ch.tail = true := by
  have := h.head_lt hp
  have := h.tail_lt hp
  unfold isFull
  unfold count at hn
  dsimp only
  split_ifs at hn ⊢ <;> simp only [beq_iff_eq] <;> bv_omega

variable [Inhabited α]

/-- A `set` on an open channel with room writes slot `tail_` and appends to the queue. -/
theorem items_set (h : Valid ch) (hc : ch.closed = false) (hf : ch.count + 1 < ch.size.toNat)
    (t : α) : (ch.set t).2.items = ch.items ++ [t] := by
  have hp := h.size_pos hc
  have hh := h.head_lt hp
  have ht := h.tail_lt hp
  have hadv := ch.advance_toNat ht
  have hF : ch.isFull ch.tail = false := by
    simpa using mt (count_of_isFull h hp) (by omega)
  have hs : (ch.set t).2 = { ch with
      buffer := ch.buffer.set ch.tail.toNat t
      tail := ch.advance ch.tail } := by
    simp [BoundedChannel.set, hc, hF, h.owns, ht]
  have hcount : (ch.set t).2.count = ch.count + 1 := by
    rw [hs]
    unfold count at hf ⊢
    simp only [hadv]
    split_ifs at hf ⊢ <;> omega
  rw [items, hcount, hs]
  simp only [List.range_succ, List.map_append, List.map_cons, List.map_nil]
  congr 1
  · refine List.map_congr_left fun i hi => ?_
    have hi := List.mem_range.mp hi
    have hne : ch.tail.toNat ≠ circularIndex ch.head.toNat i ch.size.toNat := by
      unfold count at hi
      unfold circularIndex
      split_ifs at hi ⊢ <;> omega
    simp [List.getElem?_set_ne hne]
  · have heq : circularIndex ch.head.toNat ch.count ch.size.toNat = ch.tail.toNat := by
      unfold count circularIndex
      split_ifs <;> omega
    simp [heq, h.owns, ht]

/-- A `get(&v)` on an open non-empty channel hands out `buffer_[head_]` and advances `head_`,
dropping the first item. -/
theorem get_some (h : Valid ch) (hc : ch.closed = false) (hne : ch.count ≠ 0) (w : α) :
    ch.get (some w) = (.returned (true, some (ch.buffer.getD ch.head.toNat default)),
      { ch with head := ch.advance ch.head }) := by
  have hp := h.size_pos hc
  have hh := h.head_lt hp
  have hE : ch.isEmpty ch.head = false := by simpa using mt (isEmpty_iff h hp).1 hne
  simp [BoundedChannel.get, hc, hE, List.getElem?_eq_getElem (h.owns ▸ hh : _ < ch.buffer.length)]

theorem items_advance (h : Valid ch) (hc : ch.closed = false) (hne : ch.count ≠ 0) :
    ch.items = ch.buffer.getD ch.head.toNat default ::
      ({ ch with head := ch.advance ch.head } : BoundedChannel α).items := by
  have hp := h.size_pos hc
  have hh := h.head_lt hp
  have ht := h.tail_lt hp
  have hadv := ch.advance_toNat hh
  have hcount : ({ ch with head := ch.advance ch.head } : BoundedChannel α).count =
      ch.count - 1 := by
    unfold count at hne ⊢
    simp only [hadv]
    split_ifs at hne ⊢ <;> omega
  obtain ⟨k, hk⟩ : ∃ k, ch.count = k + 1 := ⟨ch.count - 1, by omega⟩
  have hk' : k < ch.size.toNat := by have := count_lt h hp; omega
  simp only [items, hcount, hk, List.range_succ_eq_map, List.map_cons, List.map_map,
    Nat.add_sub_cancel]
  congr 1
  · simp [circularIndex, hh]
  · refine List.map_congr_left fun i hi => ?_
    have hi := List.mem_range.mp hi
    simp only [Function.comp, hadv, circularIndex]
    congr 1
    split_ifs <;> omega

end BoundedChannel

/-- A bounded FIFO queue that can be closed: what a channel is for. -/
structure Fifo (α : Type) where
  items : List α
  closed : Bool
  deriving DecidableEq, Repr

namespace Fifo

def empty : Fifo α := ⟨[], false⟩

/-- Append when open and below the capacity `c`; a refused item stays with the caller. -/
def set (c : ℕ) (q : Fifo α) (t : α) : Outcome Bool × Fifo α :=
  if q.closed = false ∧ q.items.length < c then
    (.returned true, { q with items := q.items ++ [t] })
  else (.returned false, q)

/-- Take the first item when open and non-empty; without an item slot only report it. -/
def get (q : Fifo α) (val : Option α) : Outcome (Bool × Option α) × Fifo α :=
  match q.closed, q.items, val with
  | false, x :: xs, some _ => (.returned (true, some x), { q with items := xs })
  | false, _ :: _, none => (.returned (true, none), q)
  | _, _, _ => (.returned (false, val), q)

def close (q : Fifo α) : Outcome Unit × Fifo α :=
  if q.closed then (.threw closedTwice, q) else (.returned (), { q with closed := true })

end Fifo

/-- A call on the channel: `set(t)`, `get(&v)` or `get(nullptr)`, and `close()`. -/
inductive Request (α : Type) where
  | set (t : α)
  | get (val : Option α)
  | close

/-- What the caller sees of a call. The value `close` returns is not part of the queue. -/
inductive Reply (α : Type) where
  | set (r : Outcome Bool)
  | get (r : Outcome (Bool × Option α))
  | close (r : Outcome Unit)
  deriving DecidableEq, Repr

def BoundedChannel.respond (ch : BoundedChannel α) : Request α → Reply α × BoundedChannel α
  | .set t => (.set (ch.set t).1, (ch.set t).2)
  | .get val => (.get (ch.get val).1, (ch.get val).2)
  | .close => (.close (ch.close.1.map fun _ => ()), ch.close.2)

def Fifo.respond (c : ℕ) (q : Fifo α) : Request α → Reply α × Fifo α
  | .set t => (.set (q.set c t).1, (q.set c t).2)
  | .get val => (.get (q.get val).1, (q.get val).2)
  | .close => (.close q.close.1, q.close.2)

/-- Answer the calls in order, threading the object's state. -/
def serve {σ : Type} (respond : σ → Request α → Reply α × σ) (s : σ) :
    List (Request α) → List (Reply α) × σ
  | [] => ([], s)
  | r :: rs =>
    ((respond s r).1 :: (serve respond (respond s r).2 rs).1, (serve respond (respond s r).2 rs).2)

/-- A relation kept by every call with equal replies is kept by every sequence of calls. -/
theorem serve_simulates {σ τ : Type} {f : σ → Request α → Reply α × σ}
    {g : τ → Request α → Reply α × τ} (R : σ → τ → Prop)
    (hstep : ∀ s t r, R s t → (f s r).1 = (g t r).1 ∧ R (f s r).2 (g t r).2) :
    ∀ reqs s t, R s t →
      (serve f s reqs).1 = (serve g t reqs).1 ∧ R (serve f s reqs).2 (serve g t reqs).2
  | [], _, _, h => ⟨rfl, h⟩
  | r :: rs, s, t, h =>
    have h1 := hstep s t r h
    have h2 := serve_simulates R hstep rs _ _ h1.2
    ⟨by simp only [serve, h1.1, h2.1], h2.2⟩

/-- The channel stands for the queue `q`: it is valid, has `c + 1` slots, holds `q`'s items
and is closed exactly when `q` is. -/
structure Abstracts [Inhabited α] (c : ℕ) (ch : BoundedChannel α) (q : Fifo α) : Prop where
  valid : Valid ch
  size_eq : ch.size.toNat = c + 1
  items_eq : ch.items = q.items
  closed_eq : ch.closed = q.closed

section Simulation

variable [Inhabited α] {c : ℕ} {ch : BoundedChannel α} {q : Fifo α}

theorem Abstracts.size_pos (hq : Abstracts c ch q) : 0 < ch.size.toNat := by
  rw [hq.size_eq]
  omega

theorem Abstracts.length_eq (hq : Abstracts c ch q) : q.items.length = ch.count := by
  rw [← hq.items_eq, length_items]

theorem Abstracts.count_le (hq : Abstracts c ch q) : ch.count ≤ c := by
  have := count_lt hq.valid hq.size_pos
  rw [hq.size_eq] at this
  omega

theorem set_simulates (hq : Abstracts c ch q) (hw : 2 * c + 1 < 2 ^ 64) (t : α) :
    (ch.set t).1 = (q.set c t).1 ∧ Abstracts c (ch.set t).2 (q.set c t).2 := by
  have hp := hq.size_pos
  cases hc : q.closed
  case true =>
    have hcc : ch.closed = true := hq.closed_eq.trans hc
    simpa [BoundedChannel.set, Fifo.set, hcc, hc] using hq
  case false =>
  have hcc : ch.closed = false := hq.closed_eq.trans hc
  by_cases hn : ch.count = c
  · have hF : ch.isFull ch.tail = true :=
      isFull_of_count hq.valid hp (by rw [hq.size_eq]; omega) (by rw [hq.size_eq, hn])
    simpa [BoundedChannel.set, Fifo.set, hcc, hF, hc, hq.length_eq, hn] using hq
  · have hlt : ch.count < c := lt_of_le_of_ne hq.count_le hn
    have hF : ch.isFull ch.tail = false := by
      simpa using mt (count_of_isFull hq.valid hp) (by rw [hq.size_eq]; omega)
    have hl : ch.tail.toNat < ch.buffer.length := hq.valid.owns ▸ hq.valid.tail_lt hp
    refine ⟨by simp [BoundedChannel.set, Fifo.set, hcc, hF, hc, hq.length_eq, hl, hlt], ?_⟩
    simp only [Fifo.set, hc, hq.length_eq, hlt, and_self, ↓reduceIte]
    exact ⟨set_valid hq.valid t, by simp [hq.size_eq], by
      rw [items_set hq.valid hcc (by rw [hq.size_eq]; omega), hq.items_eq], by simp [hcc]⟩

theorem get_simulates (hq : Abstracts c ch q) (val : Option α) :
    (ch.get val).1 = (q.get val).1 ∧ Abstracts c (ch.get val).2 (q.get val).2 := by
  have hp := hq.size_pos
  cases hc : q.closed
  case true =>
    have hcc : ch.closed = true := hq.closed_eq.trans hc
    simpa [BoundedChannel.get, Fifo.get, hcc, hc] using hq
  case false =>
  have hcc : ch.closed = false := hq.closed_eq.trans hc
  by_cases hn : ch.count = 0
  · have hE : ch.isEmpty ch.head = true := (isEmpty_iff hq.valid hp).2 hn
    have hnil : q.items = [] := List.length_eq_zero.mp (hq.length_eq.trans hn)
    simpa [BoundedChannel.get, Fifo.get, hcc, hE, hc, hnil] using hq
  · have hi := items_advance hq.valid hcc hn
    rw [hq.items_eq] at hi
    cases val with
    | none =>
      have hE : ch.isEmpty ch.head = false := by
        simpa using mt (isEmpty_iff hq.valid hp).1 hn
      simpa [BoundedChannel.get, Fifo.get, hcc, hE, hc, hi] using hq
    | some w =>
      have hv := get_valid hq.valid (some w)
      rw [get_some hq.valid hcc hn] at hv ⊢
      simp only [Fifo.get, hc, hi]
      exact ⟨trivial, hv, hq.size_eq, rfl, hcc⟩

theorem close_simulates (hq : Abstracts c ch q) :
    ch.close.1.map (fun _ => ()) = q.close.1 ∧ Abstracts c ch.close.2 q.close.2 := by
  cases hc : q.closed
  case true =>
    have hcc : ch.closed = true := hq.closed_eq.trans hc
    simpa [BoundedChannel.close, Fifo.close, Outcome.map, hcc, hc] using hq
  case false =>
    have hcc : ch.closed = false := hq.closed_eq.trans hc
    simp only [BoundedChannel.close, Fifo.close, Outcome.map, hcc, hc, Bool.false_eq_true,
      ↓reduceIte]
    have hv := hq.valid
    exact ⟨trivial, ⟨hv.owns, hv.head_lt, hv.tail_lt, fun _ => rfl⟩, hq.size_eq, hq.items_eq, rfl⟩

theorem respond_simulates (hq : Abstracts c ch q) (hw : 2 * c + 1 < 2 ^ 64) (r : Request α) :
    (ch.respond r).1 = (q.respond c r).1 ∧ Abstracts c (ch.respond r).2 (q.respond c r).2 := by
  cases r with
  | set t =>
    have h := set_simulates hq hw t
    exact ⟨congrArg Reply.set h.1, h.2⟩
  | get val =>
    have h := get_simulates hq val
    exact ⟨congrArg Reply.get h.1, h.2⟩
  | close =>
    have h := close_simulates hq
    exact ⟨congrArg Reply.close h.1, h.2⟩

theorem boundedChannel_abstracts (hw : 2 * c + 1 < 2 ^ 64) :
    Abstracts c (boundedChannel (α := α) (c : SizeT)) Fifo.empty := by
  have hc : (c : SizeT).toNat = c := by
    simp only [BitVec.natCast_eq_ofNat, BitVec.toNat_ofNat]
    omega
  have hs : ((c : SizeT) + 1).toNat = c + 1 := by bv_omega
  exact ⟨boundedChannel_valid (by omega), hs, by simp [items, count, boundedChannel, Fifo.empty],
    rfl⟩

end Simulation

/-- For every capacity `c` with `size_ + tail_` below `2^64`, `bounded_channel<T>` answers
every sequence of `set`, `get` and `close` calls as the bounded FIFO queue does, and holds that
queue between `head_` and `tail_` throughout. A `set` or `get` returning `false` leaves the
channel and the caller's item as they were. -/
theorem channel_refines_fifo [Inhabited α] (c : ℕ) (hw : 2 * c + 1 < 2 ^ 64)
    (reqs : List (Request α)) :
    (serve BoundedChannel.respond (boundedChannel (c : SizeT)) reqs).1 =
        (serve (Fifo.respond c) Fifo.empty reqs).1 ∧
      Abstracts c (serve BoundedChannel.respond (boundedChannel (c : SizeT)) reqs).2
        (serve (Fifo.respond c) Fifo.empty reqs).2 ∧
      (∀ (ch : BoundedChannel α) t, (ch.set t).1 = .returned false → (ch.set t).2 = ch) ∧
      (∀ (ch : BoundedChannel α) val v,
        (ch.get val).1 = .returned (false, v) → v = val ∧ (ch.get val).2 = ch) :=
  ⟨(serve_simulates (Abstracts c) (fun _ _ r hq => respond_simulates hq hw r) reqs _ _
      (boundedChannel_abstracts hw)).1,
    (serve_simulates (Abstracts c) (fun _ _ r hq => respond_simulates hq hw r) reqs _ _
      (boundedChannel_abstracts hw)).2,
    fun _ t => set_false t, fun _ val v => get_false val v⟩

/-- The spec's capacity-two scenario: three pushes, a pop, a push and three pops. -/
def capacityTwoCalls : List (Request ℕ) :=
  [.set 1, .set 2, .set 3, .get (some 0), .set 3, .get (some 0), .get (some 0), .get (some 0)]

theorem channel_refines_fifo_capacity_two :
    2 * 2 + 1 < 2 ^ 64 ∧
      (serve BoundedChannel.respond (boundedChannel ((2 : ℕ) : SizeT)) capacityTwoCalls).1 =
          (serve (Fifo.respond 2) Fifo.empty capacityTwoCalls).1 ∧
        Abstracts 2
          (serve BoundedChannel.respond (boundedChannel ((2 : ℕ) : SizeT)) capacityTwoCalls).2
          (serve (Fifo.respond 2) Fifo.empty capacityTwoCalls).2 ∧
        (∀ (ch : BoundedChannel ℕ) t, (ch.set t).1 = .returned false → (ch.set t).2 = ch) ∧
        (∀ (ch : BoundedChannel ℕ) val v,
          (ch.get val).1 = .returned (false, v) → v = val ∧ (ch.get val).2 = ch) :=
  ⟨by omega, channel_refines_fifo 2 (by omega) _⟩

end PikaLocal.Channel
