import PikaLocal.Channel.Refinement

/-! What the producers and consumers of a `bounded_channel` see over a whole run. Every item a
`set` accepted is taken out by exactly one `get(&v)`, in the order it was accepted, or is still
buffered. Once `close()` has succeeded nothing more goes in or out, so the items buffered at
that moment are never handed out. -/
namespace PikaLocal.Channel

variable {α : Type}

/-- The item a call hands to the channel: `t` of a `set(t)` that returned `true`. -/
def Request.accepted : Request α → Reply α → List α
  | .set t, .set (.returned true) => [t]
  | _, _ => []

/-- The item a call takes out: what a `get(&v)` that returned `true` moved into `v`. -/
def Reply.delivered : Reply α → List α
  | .get (.returned (true, some x)) => [x]
  | _ => []

/-- The items the calls of a run handed over, in order. -/
def accepted : List (Request α) → List (Reply α) → List α
  | r :: rs, p :: ps => r.accepted p ++ accepted rs ps
  | _, _ => []

/-- The items the calls of a run took out, in order. -/
def delivered : List (Reply α) → List α
  | [] => []
  | p :: ps => p.delivered ++ delivered ps

/-- The replies to `reqs` and the channel afterwards, from a fresh `bounded_channel(c)`. -/
def serveFrom [Inhabited α] (c : ℕ) (reqs : List (Request α)) :
    List (Reply α) × BoundedChannel α :=
  serve BoundedChannel.respond (BoundedChannel.boundedChannel (c : SizeT)) reqs

@[simp] theorem delivered_append (ps qs : List (Reply α)) :
    delivered (ps ++ qs) = delivered ps ++ delivered qs := by
  induction ps with
  | nil => rfl
  | cons p ps ih => simp [delivered, ih]

theorem accepted_append {rs ss : List (Request α)} {ps qs : List (Reply α)}
    (h : rs.length = ps.length) :
    accepted (rs ++ ss) (ps ++ qs) = accepted rs ps ++ accepted ss qs := by
  induction rs generalizing ps with
  | nil => simp [List.length_eq_zero.mp h.symm, accepted]
  | cons r rs ih =>
    cases ps with
    | nil => simp at h
    | cons p ps => simp [accepted, ih (Nat.succ.inj h)]

section Serve

variable {σ : Type} (f : σ → Request α → Reply α × σ)

theorem length_serve : ∀ (s : σ) (reqs : List (Request α)), (serve f s reqs).1.length = reqs.length
  | _, [] => rfl
  | s, _ :: rs => by simp [serve, length_serve (f s _).2 rs]

/-- Serving two call sequences one after the other is serving their concatenation. -/
theorem serve_append : ∀ (s : σ) (pre post : List (Request α)),
    serve f s (pre ++ post) =
      ((serve f s pre).1 ++ (serve f (serve f s pre).2 post).1, (serve f (serve f s pre).2 post).2)
  | _, [], _ => rfl
  | s, r :: rs, post => by simp [serve, serve_append (f s r).2 rs post]

end Serve

namespace Fifo

/-- One call keeps the books: the queued items and what the call handed over are what it took
out and the items queued after it. -/
theorem respond_conserves (c : ℕ) (q : Fifo α) (r : Request α) :
    q.items ++ r.accepted (q.respond c r).1 =
      (q.respond c r).1.delivered ++ (q.respond c r).2.items := by
  cases r with
  | set t =>
    simp only [respond, set]
    split <;> simp [Request.accepted, Reply.delivered]
  | get val =>
    simp only [respond, get]
    split <;> simp_all [Request.accepted, Reply.delivered]
  | close =>
    simp only [respond, close]
    split <;> simp [Request.accepted, Reply.delivered]

theorem serve_conserves (c : ℕ) : ∀ (reqs : List (Request α)) (q : Fifo α),
    q.items ++ accepted reqs (serve (respond c) q reqs).1 =
      delivered (serve (respond c) q reqs).1 ++ (serve (respond c) q reqs).2.items
  | [], _ => by simp [serve, accepted, delivered]
  | r :: rs, q => by
    have h1 := respond_conserves c q r
    have h2 := serve_conserves c rs (q.respond c r).2
    simp only [serve, accepted, delivered]
    rw [← List.append_assoc, h1, List.append_assoc, h2, List.append_assoc]

end Fifo

namespace BoundedChannel

/-- A closed channel answers every call without a change: `set` and `get` return `false`, and
`close` throws. -/
theorem respond_closed (ch : BoundedChannel α) (hc : ch.closed = true) (r : Request α) :
    (ch.respond r).2 = ch ∧ r.accepted (ch.respond r).1 = [] ∧ (ch.respond r).1.delivered = [] := by
  cases r <;> simp [respond, set, get, close, hc, Request.accepted, Reply.delivered]

theorem serve_closed (ch : BoundedChannel α) (hc : ch.closed = true) :
    ∀ reqs : List (Request α), (serve respond ch reqs).2 = ch ∧
      accepted reqs (serve respond ch reqs).1 = [] ∧ delivered (serve respond ch reqs).1 = []
  | [] => ⟨rfl, by simp [serve, accepted], rfl⟩
  | r :: rs => by
    obtain ⟨hs, ha, hd⟩ := respond_closed ch hc r
    obtain ⟨ih1, ih2, ih3⟩ := serve_closed ch hc rs
    simp [serve, accepted, delivered, hs, ha, hd, ih1, ih2, ih3]

end BoundedChannel

variable [Inhabited α] {c : ℕ}

theorem Abstracts.capacity_eq {ch : BoundedChannel α} {q : Fifo α} (hq : Abstracts c ch q) :
    ch.capacity.toNat = c := by
  have := hq.size_eq
  simp only [BoundedChannel.capacity]
  bv_omega

/-- A fresh channel's run stands for the queue's run: equal replies, and the channel holds the
queue's items. -/
theorem serveFrom_abstracts (hw : 2 * c + 1 < 2 ^ 64) (reqs : List (Request α)) :
    (serveFrom c reqs).1 = (serve (Fifo.respond c) Fifo.empty reqs).1 ∧
      Abstracts c (serveFrom c reqs).2 (serve (Fifo.respond c) Fifo.empty reqs).2 :=
  serve_simulates (Abstracts c) (fun _ _ r hq => respond_simulates hq hw r) reqs _ _
    (boundedChannel_abstracts hw)

theorem serveFrom_conserves (hw : 2 * c + 1 < 2 ^ 64) (reqs : List (Request α)) :
    accepted reqs (serveFrom c reqs).1 =
      delivered (serveFrom c reqs).1 ++ (serveFrom c reqs).2.items := by
  obtain ⟨hr, hq⟩ := serveFrom_abstracts hw reqs
  rw [hr, hq.items_eq]
  simpa [Fifo.empty] using Fifo.serve_conserves c reqs Fifo.empty

/-- For every capacity `c` with `size_ + tail_` below `2^64` and every sequence of calls, in any
interleaving of producers and consumers, the items the `set` calls handed over are, in order,
the items the `get(&v)` calls took out followed by the items still buffered: no item is lost,
taken out twice or overtaken. At most `capacity()` items are ever buffered. -/
theorem channel_conserves_items (c : ℕ) (hw : 2 * c + 1 < 2 ^ 64) (reqs : List (Request α)) :
    accepted reqs (serveFrom c reqs).1 =
        delivered (serveFrom c reqs).1 ++ (serveFrom c reqs).2.items ∧
      (serveFrom c reqs).2.items.length ≤ (serveFrom c reqs).2.capacity.toNat := by
  have hq := (serveFrom_abstracts hw reqs).2
  refine ⟨serveFrom_conserves hw reqs, ?_⟩
  rw [BoundedChannel.length_items, hq.capacity_eq]
  exact hq.count_le

/-- A producer and a consumer interleaved on a channel of capacity two. -/
def handOverCalls : List (Request ℕ) :=
  [.set 1, .set 2, .set 3, .get (some 0), .get none, .set 4, .get (some 0), .get (some 0)]

theorem channel_conserves_items_hand_over :
    2 * 2 + 1 < 2 ^ 64 ∧
      accepted handOverCalls (serveFrom 2 handOverCalls).1 =
          delivered (serveFrom 2 handOverCalls).1 ++ (serveFrom 2 handOverCalls).2.items ∧
        (serveFrom 2 handOverCalls).2.items.length ≤
          (serveFrom 2 handOverCalls).2.capacity.toNat :=
  ⟨by omega, channel_conserves_items 2 (by omega) handOverCalls⟩

/-- Once a call sequence `pre` has closed a fresh channel, whatever calls `post` follow, the run
takes out exactly what `pre` took out and the channel stays as `pre` left it. The items
buffered at the close were accepted but are never taken out. -/
theorem closed_channel_strands_items (c : ℕ) (hw : 2 * c + 1 < 2 ^ 64)
    (pre post : List (Request α)) (hc : (serveFrom c pre).2.closed = true) :
    delivered (serveFrom c (pre ++ post)).1 = delivered (serveFrom c pre).1 ∧
      accepted (pre ++ post) (serveFrom c (pre ++ post)).1 =
        delivered (serveFrom c pre).1 ++ (serveFrom c pre).2.items ∧
      (serveFrom c (pre ++ post)).2 = (serveFrom c pre).2 := by
  obtain ⟨hs, ha, hd⟩ := BoundedChannel.serve_closed _ hc post
  have hlen := length_serve BoundedChannel.respond (BoundedChannel.boundedChannel (c : SizeT)) pre
  simp only [serveFrom, serve_append] at hs ha hd hlen ⊢
  refine ⟨by rw [delivered_append, hd, List.append_nil], ?_, hs⟩
  rw [accepted_append hlen.symm, ha, List.append_nil]
  exact serveFrom_conserves hw pre

/-- Two items buffered, then `close()`. -/
def closeCalls : List (Request ℕ) := [.set 1, .set 2, .close]

theorem closed_channel_strands_items_two :
    2 * 2 + 1 < 2 ^ 64 ∧ (serveFrom 2 closeCalls).2.closed = true ∧
      delivered (serveFrom 2 (closeCalls ++ [.get (some 0), .set 3])).1 =
          delivered (serveFrom 2 closeCalls).1 ∧
        accepted (closeCalls ++ [.get (some 0), .set 3])
            (serveFrom 2 (closeCalls ++ [.get (some 0), .set 3])).1 =
          delivered (serveFrom 2 closeCalls).1 ++ (serveFrom 2 closeCalls).2.items ∧
        (serveFrom 2 (closeCalls ++ [.get (some 0), .set 3])).2 = (serveFrom 2 closeCalls).2 :=
  ⟨by omega, rfl, closed_channel_strands_items 2 (by omega) closeCalls _ rfl⟩

end PikaLocal.Channel
