import PikaLocal.WhenSome.Result

/-! The join of the variadic `when_some(n, t, ts...)`, whose leaves carry the indices of
`set_when_some_callback_impl`'s walk over the tuple. Under every threshold, state of the futures
and interleaving, the indices handed back are distinct exactly when no leaf follows a nonempty
range. Otherwise `when_some(2, args...)` already hands back a repeated index when every future
is pending at the start and the two leaves that share an index complete first. -/
namespace PikaLocal.WhenSome

open Function

variable {F : Type}

theorem Join.run_append (S : Setup) (s : Join) (es fs : List Event) :
    s.run S (es ++ fs) = (s.run S es).bind fun t => t.run S fs := by
  induction es generalizing s with
  | nil => rfl
  | cons e es ih => simp [Join.run, ih, Option.bind_assoc]

/-- With no leaf after a nonempty range, leaf `i` carries its position. -/
theorem Setup.ofTuple_tag {n : ℕ} {args : List (Arg F)} {hs ra : ℕ → Bool} {ctx : Agent}
    (hl : rangesLast args = true) {i : ℕ} (hi : i < (leaves args).length) :
    (Setup.ofTuple n args hs ra ctx).tag i = i := by
  simp [Setup.ofTuple, callbackTags, visitTuple_of_rangesLast 0 hl, hi]

/-- No callback runs inline: the caller's own code may move. -/
theorem Join.busy_eq_false {S : Setup} {s : Join} (h : ∀ j, (s.leg j).runsOn S.ctx = false) :
    s.busy S = false :=
  List.any_eq_false.mpr fun j _ => by simp [h j]

section Walk

variable {S : Setup} {i : ℕ}

/-- The join once the walk has registered `on_future_ready` with the first `i` leaves, every
future pending. -/
def registered (i : ℕ) : Join where
  ready := fun _ => false
  leg := fun j => if j < i then .stored else .unvisited
  count := 0
  indices := []
  goal := false
  caller := .visit i
  wake := false
  result := none
  stores := 0
  resumes := 0

@[simp] theorem registered_ready : (registered i).ready = fun _ => false := rfl
@[simp] theorem registered_count : (registered i).count = 0 := rfl
@[simp] theorem registered_caller : (registered i).caller = .visit i := rfl
@[simp] theorem registered_goal : (registered i).goal = false := rfl

theorem registered_runsOn (j : ℕ) : ((registered i).leg j).runsOn S.ctx = false := by
  simp only [registered]
  split <;> rfl

/-- The registered leaves hold their callbacks and the others are unvisited: none runs. -/
theorem busy_registered (r : ℕ → Bool) (c : ℕ) (t : List ℕ) (g : Bool) (ca : Caller) (w : Bool)
    (res : Option (List ℕ)) (st rs : ℕ) :
    Join.busy S ⟨r, (registered i).leg, c, t, g, ca, w, res, st, rs⟩ = false :=
  Join.busy_eq_false registered_runsOn

theorem registered_busy : (registered i).busy S = false := busy_registered _ _ _ _ _ _ _ _ _

theorem registered_init (hr : S.readyAtStart = fun _ => false) : S.init = registered 0 := by
  simp only [Setup.init, registered, hr, Nat.not_lt_zero, if_false]

/-- The walk at a pending leaf below the threshold: load `count_`, find the future not ready,
and hand it `on_future_ready`. -/
theorem registered_step (hn : 0 < S.needed) (hs : ∀ j, S.hasState j = true) (hi : i < S.size) :
    (registered i).run S [.caller, .caller, .caller] = some (registered (i + 1)) := by
  simp [Join.run, Join.step, busy_registered, registered_busy, Join.callerStep, hn, hi, hs]
  simp only [registered, Join.mk.injEq, and_true, true_and]
  funext j
  rw [update_apply]
  split_ifs <;> first | rfl | omega

theorem registered_run (hn : 0 < S.needed) (hs : ∀ j, S.hasState j = true) :
    ∀ k {i : ℕ}, i + k ≤ S.size → (registered i).run S (List.replicate (3 * k) .caller) =
      some (registered (i + k))
  | 0, _, _ => rfl
  | k + 1, i, hk => by
    rw [show 3 * (k + 1) = 3 + 3 * k by omega, List.replicate_add, Join.run_append,
      show List.replicate 3 Event.caller = [.caller, .caller, .caller] from rfl,
      registered_step hn hs (by omega), Option.some_bind, registered_run hn hs k (by omega),
      Nat.add_right_comm, Nat.add_assoc]

/-- Past the last leaf the flag is unset and the caller suspends. Leaves `a < b` then complete
on another agent; their callbacks count to one and two, push their tags, and the second
resumes the caller, which moves `values_` out. -/
theorem registered_pair {a b : ℕ} (hab : a < b) (hb : b < S.size) (hn : S.needed = 2)
    (hctx : S.ctx = 0) (hs : ∀ j, S.hasState j = true) :
    ∃ s, (registered S.size).run S [.caller, .complete a 1, .callback a, .callback a,
        .complete b 1, .callback b, .callback b, .callback b, .caller] = some s ∧
      s.caller = .running ∧ s.indices = [S.tag a, S.tag b] := by
  have hne : b ≠ a := by omega
  have hsusp : (registered S.size).step S .caller =
      some { registered S.size with caller := .suspended } := by
    simp [Join.step, registered_busy, Join.callerStep]
  have hpair : ∃ s, ({ registered S.size with caller := .suspended } : Join).run S
      [.complete a 1, .callback a, .callback a, .complete b 1, .callback b, .callback b,
        .callback b] = some s ∧ s.indices = [S.tag a, S.tag b] ∧ s.caller = .suspended ∧
        s.wake = true ∧ ∀ j, (s.leg j).runsOn S.ctx = false := by
    simp [Join.run, Join.step, Join.complete, Join.onFutureReady, registered, hab, hb, hn, hctx, hs,
      hne, update_noteq, show a < S.size by omega]
    intro j
    simp only [update_apply]
    split_ifs <;> rfl
  obtain ⟨s, hr, hi, hc, hw, hon⟩ := hpair
  refine ⟨{ s with wake := false, caller := .running }, ?_, rfl, hi⟩
  show ((registered S.size).step S .caller).bind (fun t => t.run S ([.complete a 1, .callback a,
    .callback a, .complete b 1, .callback b, .callback b, .callback b] ++ [.caller])) = _
  rw [hsusp, Option.some_bind, Join.run_append, hr, Option.some_bind]
  simp [Join.run, Join.step, Join.busy_eq_false hon, Join.callerStep, hc, hw]

end Walk

/-- Two leaves with one tag, every future pending at the start and two needed: a schedule of the
join hands back the tag twice. -/
theorem repeat_of_tag_eq {S : Setup} {a b : ℕ} (hab : a < b) (hb : b < S.size) (hn : S.needed = 2)
    (hctx : S.ctx = 0) (hs : ∀ j, S.hasState j = true) (hr : S.readyAtStart = fun _ => false)
    (ht : S.tag a = S.tag b) :
    ∃ s, Reachable S s ∧ s.caller = .running ∧ ¬ s.indices.Nodup := by
  obtain ⟨s, hrun, hc, hi⟩ := registered_pair hab hb hn hctx hs
  have hwalk := registered_run (i := 0) (by omega) hs S.size (by omega)
  rw [Nat.zero_add] at hwalk
  have h : S.init.run S (List.replicate (3 * S.size) .caller ++ [.caller, .complete a 1,
      .callback a, .callback a, .complete b 1, .callback b, .callback b, .callback b, .caller]) =
      some s := by
    rw [Join.run_append, registered_init hr, hwalk, Option.some_bind, hrun]
  exact ⟨s, Reachable.init.run h, hc, by simp [hi, ht]⟩

/-- A leaf after a nonempty range: `when_some(2, args...)` starts a join, and with every future
pending at the start a schedule of it hands back a repeated index. -/
theorem repeat_of_rangesLast {args : List (Arg F)} (hl : rangesLast args = false) :
    whenSome 2 args = .join 2 ∧
      ∃ s, Reachable (Setup.ofTuple 2 args (fun _ => true) (fun _ => false) 0) s ∧
        s.caller = .running ∧ ¬ s.indices.Nodup := by
  have hdup := not_nodup_of_rangesLast 0 hl
  obtain ⟨a, b, hab, hb, heq⟩ := by
    simpa [List.nodup_iff_getElem?_ne_getElem?] using hdup
  have hlen : (visitTuple 0 args).1.length = (leaves args).length := length_visitTuple 0 args
  refine ⟨?_, repeat_of_tag_eq hab (by simpa [Setup.ofTuple, hlen] using hb) rfl rfl
    (fun _ => rfl) rfl (by simp [Setup.ofTuple, callbackTags, heq])⟩
  match args, hl with
  | [.range fs], hl => simp [rangesLast, leaves] at hl
  | .future _ :: _ :: _, _ | .range _ :: _ :: _, _ =>
    simp only [whenSome, whenSomeVariadic, List.length_cons]
    rw [if_neg (by omega), if_neg (by omega)]
  | [.future _], hl => simp [rangesLast] at hl

/-- With no leaf after a nonempty range, the indices handed back are distinct positions, each of
a future that is ready or has no shared state. -/
theorem indices_of_rangesLast {n : ℕ} {args : List (Arg F)} {hs ra : ℕ → Bool} {ctx : Agent}
    {s : Join} (hl : rangesLast args = true) (h : Reachable (Setup.ofTuple n args hs ra ctx) s)
    (hc : s.caller = .running) :
    s.indices.Nodup ∧ ∀ t ∈ s.indices, t < (leaves args).length ∧ (hs t = false ∨ s.ready t = true) := by
  obtain ⟨L, hnd, hi, hL⟩ := indices_at_move h hc
  have hid : L.map (Setup.ofTuple n args hs ra ctx).tag = L :=
    (List.map_congr_left fun j hj => Setup.ofTuple_tag hl (hL j hj).1).trans (List.map_id L)
  rw [hi, hid]
  exact ⟨hnd, hL⟩

/-- With no leaf after a nonempty range, under every threshold, state of the futures and
interleaving, the indices `operator()` hands back for a tuple are distinct positions below the
number of leaves, each of a future that is ready or has no shared state. With a leaf after a
nonempty range, `when_some(2, args...)` starts a join, and with every future pending at the start
some schedule of it hands back a repeated index. -/
theorem tuple_indices_at_move (args : List (Arg F)) :
    (rangesLast args = true → ∀ n hs ra ctx s, Reachable (Setup.ofTuple n args hs ra ctx) s →
        s.caller = .running → s.indices.Nodup ∧
          ∀ t ∈ s.indices, t < (leaves args).length ∧ (hs t = false ∨ s.ready t = true)) ∧
      (rangesLast args = false → whenSome 2 args = .join 2 ∧
        ∃ s, Reachable (Setup.ofTuple 2 args (fun _ => true) (fun _ => false) 0) s ∧
          s.caller = .running ∧ ¬ s.indices.Nodup) :=
  ⟨fun hl _ _ _ _ _ h hc => indices_of_rangesLast hl h hc, repeat_of_rangesLast⟩

end PikaLocal.WhenSome
