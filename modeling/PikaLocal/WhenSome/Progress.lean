import PikaLocal.WhenSome.Wakeup

/-! Every schedule of a join ends, and with `1 ≤ needed_count_ ≤` the number of leaves it ends
with the caller returned. Each step lowers a rank: the caller's code moves forward, a callback
moves on, or a shared state becomes ready. Where nothing can move every leaf is over, and the
caller is not left suspended: the one resume it waits for was made and is still pending. -/
namespace PikaLocal.WhenSome

open Function

variable {S : Setup} {s s' : Join} {e : Event}

/-- The flag and the resume as the caller sees them. -/
structure Waking (S : Setup) (s : Join) : Prop where
  goal_of_store : 1 ≤ s.stores → s.goal = true
  suspended : s.caller = .suspended → s.goal = false
  pending : s.resumes = 0 ∨ s.wake = true ∨ s.caller = .running ∨ s.caller = .returned

theorem waking_init : Waking S S.init :=
  ⟨by simp [Setup.init], by simp [Setup.init], .inl rfl⟩

theorem Waking.moves (hs : Shape S s) (h : Waking S s) (hm : Moves S s e s') : Waking S s' := by
  have hwalk : s.caller.beforeRead = true → s.resumes = 0 ∨ s.wake = true := fun hb => by
    rcases h.pending with h0 | hw | hc | hc
    · exact .inl h0
    · exact .inr hw
    all_goals simp [hc, Caller.beforeRead] at hb
  cases hm with
  | load i hc _ _ _ | skip i hc _ _ _ | pending i hc _ _ _ | available i hc _ _ |
    register i hc _ | push i hc _ =>
    exact ⟨h.goal_of_store, by simp, (hwalk (by simp [hc, Caller.beforeRead])).imp_right .inl⟩
  | increment i hc _ =>
    exact ⟨h.goal_of_store, by split <;> simp,
      (hwalk (by simp [hc, Caller.beforeRead])).imp_right .inl⟩
  | signal i hc _ =>
    exact ⟨fun _ => rfl, by simp, (hwalk (by simp [hc, Caller.beforeRead])).imp_right .inl⟩
  | readFlag i hc _ _ =>
    by_cases hg : s.goal = true
    · exact ⟨h.goal_of_store, by simp [hg], .inr (.inr (.inl (by simp [hg])))⟩
    · exact ⟨h.goal_of_store, fun _ => by simpa using hg,
        (hwalk (by simp [hc, Caller.beforeRead])).imp_right .inl⟩
  | wakeUp hc _ _ => exact ⟨h.goal_of_store, by simp, .inr (.inr (.inl rfl))⟩
  | move hc _ => exact ⟨h.goal_of_store, by simp, .inr (.inr (.inr rfl))⟩
  | fetchAdd i a hl | append i a c hl | complete i a _ _ _ _ =>
    exact ⟨h.goal_of_store, h.suspended, h.pending⟩
  | resume i a hl _ => exact ⟨h.goal_of_store, h.suspended, .inr (.inl rfl)⟩
  | store i hl =>
    have hb := hs.inline i (hs.lt_of_visited (by simp [hl])) (by simp [hl, Leg.runsOn])
    refine ⟨fun _ => rfl, fun hc => ?_, h.pending⟩
    simp only at hc
    simp [hc, Caller.beforeRead] at hb

theorem Reachable.waking (h : Reachable S s) : Waking S s := by
  induction h with
  | init => exact waking_init
  | step _ hr hs ih => exact ih.moves hr.shape (step_moves hs)

/-- A leaf whose callback is stored, running or about to run can move. -/
theorem Shape.leg_settled (hs : Shape S s) (hst : ∀ e, s.step S e = none) {j : ℕ}
    (hj : j < S.size) : (s.leg j).settled = true ∨ s.leg j = .unvisited := by
  have hcb := hst (.callback j)
  cases hl : s.leg j with
  | stored =>
    obtain ⟨hr, hsj⟩ := hs.stored j hj hl
    have hco := hst (.complete j (S.ctx + 1))
    simp [Join.step, Join.complete, hj, hsj, hr] at hco
  | fired a | counted a c => simp [Join.step, Join.onFutureReady, hl] at hcb
  | reached a =>
    simp only [Join.step, Join.onFutureReady, hl] at hcb
    split at hcb <;> cases hcb
  | _ => simp [Leg.settled]

/-- Where nothing can move, the caller has returned, every leaf is over, and exactly one flag
store or resume was made. -/
theorem stuck_returned (hn : 1 ≤ S.needed) (hm : S.needed ≤ S.size) (h : Reachable S s)
    (hst : ∀ e, s.step S e = none) :
    s.caller = .returned ∧ s.Settled S ∧ s.stores + s.resumes = 1 := by
  have hs := h.shape
  have hleg := fun j (hj : j < S.size) => hs.leg_settled hst hj
  have hbusy : s.busy S = false := List.any_eq_false.mpr fun j hj => by
    rcases hleg j (List.mem_range.mp hj) with h | h <;> cases hl : s.leg j <;>
      simp_all [Leg.settled, Leg.runsOn]
  have hc := hst .caller
  simp only [Join.step, hbusy, Bool.false_eq_true, if_false] at hc
  have hpast : s.caller = .returned ∨ s.caller = .suspended ∧ s.wake = false := by
    cases hcl : s.caller with
    | suspended =>
      simp only [Join.callerStep, hcl] at hc
      exact .inr ⟨rfl, by simpa using hc⟩
    | returned => exact .inl rfl
    | _ =>
      simp only [Join.callerStep, hcl] at hc
      (try split_ifs at hc) <;> cases hc
  have hread : s.caller.beforeRead = false := by
    rcases hpast with hc | ⟨hc, -⟩ <;> simp [hc, Caller.beforeRead]
  have hset : s.Settled S := ⟨hread, fun j hj => (hleg j hj).resolve_right fun hu => by
    have := (hs.visited j hj).mp
    rcases hpast with hc | ⟨hc, -⟩ <;> simp [hc, Caller.pos, hj, hu] at this⟩
  have hone := (h.counting hn).settled hm hset
  refine ⟨hpast.resolve_right fun ⟨hc, hw⟩ => ?_, hset, hone⟩
  have hw' := h.waking
  have h0 : s.stores = 0 := by
    by_contra h0
    have := hw'.suspended hc
    simp [hw'.goal_of_store (by omega)] at this
  rcases hw'.pending with hr | hr | hr | hr
  · omega
  · simp [hr] at hw
  all_goals simp [hr] at hc

/-- What is left of the leaf's callback. -/
def Leg.rank : Leg → ℕ
  | .stored => 4
  | .fired _ => 3
  | .counted _ _ => 2
  | .reached _ => 1
  | _ => 0

/-- What is left of the caller's code, the walk from its current leaf included. -/
def Caller.rank (m : ℕ) : Caller → ℕ
  | .visit i => 6 * (m - i) + 3
  | .inspect i => 6 * (m - i) + 2
  | .register i | .push i => 6 * (m - i) + 1
  | .increment i => 6 * (m - i)
  | .signal i => 6 * (m - i) - 1
  | .suspended => 2
  | .running => 1
  | .returned => 0

/-- A rank that every step lowers. -/
def Join.rank (S : Setup) (s : Join) : ℕ :=
  8 * s.caller.rank S.size + total S.size (Leg.rank ∘ s.leg) +
    tally S.size fun j => S.hasState j && !s.ready j

theorem rank_of_caller (hl : s'.leg = s.leg) (hr : s'.ready = s.ready)
    (hc : s'.caller.rank S.size < s.caller.rank S.size) : s'.rank S < s.rank S := by
  unfold Join.rank
  rw [hl, hr]
  omega

theorem rank_of_update {i : ℕ} {x : Leg} (hi : i < S.size) (hr : s'.ready = s.ready)
    (hl : s'.leg = update s.leg i x)
    (h : 8 * s'.caller.rank S.size + x.rank < 8 * s.caller.rank S.size + (s.leg i).rank) :
    s'.rank S < s.rank S := by
  have := total_update hi (Leg.rank ∘ s.leg) x.rank
  unfold Join.rank
  rw [hr, hl, comp_update]
  simp only [comp_apply] at this h ⊢
  omega

theorem Moves.rank_lt (hs : Shape S s) (hm : Moves S s e s') : s'.rank S < s.rank S := by
  have hin := hs.inRange
  have hu : ∀ i, s.caller.pos S.size = i → i < S.size → (s.leg i).rank = 0 :=
    fun i hp hi => by simp [hs.unvisited_at hi hp, Leg.rank]
  cases hm with
  | load i hc hi _ _ | pending i hc _ _ _ | available i hc _ _ | push i hc _ | signal i hc _ |
    readFlag i hc _ _ | wakeUp hc _ _ | move hc _ =>
    refine rank_of_caller rfl rfl ?_
    simp only [hc, Caller.inRange] at hin
    dsimp only
    try split
    all_goals simp only [hc, Caller.rank]; omega
  | skip i hc hi _ _ =>
    refine rank_of_update hi rfl rfl ?_
    simp only [hc, Caller.rank, Leg.rank, hu i (by simp [hc, Caller.pos]) hi]
    omega
  | register i hc _ | increment i hc _ =>
    simp only [hc, Caller.inRange] at hin
    refine rank_of_update hin rfl rfl ?_
    have h0 := hu i (by simp [hc, Caller.pos]) hin
    dsimp only
    split <;> simp only [hc, Caller.rank, Leg.rank, h0] <;> omega
  | fetchAdd i _ hl | append i _ _ hl =>
    refine rank_of_update (hs.lt_of_visited (by simp [hl])) rfl rfl ?_
    dsimp only
    split <;> simp only [hl, Leg.rank] <;> omega
  | resume i a hl _ | store i hl =>
    refine rank_of_update (hs.lt_of_visited (by simp [hl])) rfl rfl ?_
    simp only [hl, Leg.rank]
    omega
  | complete i a hi hsi hri _ =>
    have hready : (fun j => S.hasState j && !update s.ready i true j) =
        update (fun j => S.hasState j && !s.ready j) i false := by
      funext j
      rw [apply_update (fun j (b : Bool) => S.hasState j && !b) s.ready i true j]
      simp
    have ht := tally_update hi (fun j => S.hasState j && !s.ready j) false
    simp only [hsi, hri, Bool.not_false, Bool.and_self, if_true, Bool.false_eq_true,
      if_false] at ht
    unfold Join.rank
    dsimp only
    rw [hready]
    split
    · have := total_update hi (Leg.rank ∘ s.leg) (Leg.fired a).rank
      rw [comp_update]
      simp only [comp_apply, Leg.rank, *] at this ⊢
      omega
    · omega

theorem Reachable.run_length (h : Reachable S s) {es : List Event} (hr : s.run S es = some s') :
    es.length + s'.rank S ≤ s.rank S := by
  induction es generalizing s with
  | nil =>
    cases Option.some.inj hr
    simp
  | cons e es ih =>
    obtain ⟨t, ht, hr⟩ := Option.bind_eq_some.mp hr
    have h1 := (step_moves ht).rank_lt h.shape
    have h2 := ih (h.step e ht) hr
    simp only [List.length_cons]
    omega

/-- Every run can be carried on to one where nothing can move: each step lowers the rank. -/
theorem Reachable.exists_stuck (h : Reachable S s) :
    ∃ es t, s.run S es = some t ∧ ∀ e, t.step S e = none := by
  obtain ⟨k, hk⟩ : ∃ k, s.rank S = k := ⟨_, rfl⟩
  induction k using Nat.strong_induction_on generalizing s with
  | _ k ih =>
    by_cases hmv : ∃ e s', s.step S e = some s'
    · obtain ⟨e, s', hs'⟩ := hmv
      obtain ⟨es, t, hr, ht⟩ := ih _ (hk ▸ (step_moves hs').rank_lt h.shape) (h.step e hs') rfl
      exact ⟨e :: es, t, by simp [Join.run, hs', hr], ht⟩
    · exact ⟨[], s, rfl, fun e => Option.eq_none_iff_forall_not_mem.mpr fun s' hs' =>
        hmv ⟨e, s', hs'⟩⟩

/-- Where nothing can move, every input with a shared state has completed. -/
theorem ready_of_stuck (hst : ∀ e, s.step S e = none) {j : ℕ} (hj : j < S.size)
    (hs : S.hasState j = true) : s.ready j = true := by
  have hco := hst (.complete j (S.ctx + 1))
  by_contra hr
  simp [Join.step, Join.complete, hj, hs, hr] at hco

/-- The ready setup after eight steps of the caller: it has returned and nothing can move. -/
theorem readySetup_stuck :
    ∃ s, readySetup.init.run readySetup (List.replicate 8 .caller) = some s ∧
      ∀ e, s.step readySetup e = none := by
  refine ⟨_, rfl, fun e => ?_⟩
  cases e with
  | caller => rfl
  | callback i | complete i _ => rcases i with _ | _ | i <;> rfl

/-- For a range of `m` futures and `1 ≤ n ≤ m`, under every interleaving: at most one flag
store or resume, never both; a store is made on the caller's agent before the caller reads the
flag; once the flag is read and every callback has returned, exactly one of the two has
happened. Where nothing can move every input has completed, the caller has returned and
exactly one of the two has happened, and every run carries on to such a point. -/
theorem one_wake_up (S : Setup) (hn : 1 ≤ S.needed) (hm : S.needed ≤ S.size)
    (es : List Event) (s : Join) (hr : S.init.run S es = some s) :
    s.stores + s.resumes ≤ 1 ∧
      (∀ e s', s.step S e = some s' → s.stores < s'.stores → s.caller.beforeRead = true ∧
        (e = .caller ∨ ∃ i, e = .callback i ∧ (s.leg i).runsOn S.ctx = true)) ∧
      (s.Settled S → s.stores + s.resumes = 1) ∧
      ((∀ e, s.step S e = none) → (∀ j < S.size, S.hasState j = true → s.ready j = true) ∧
        s.caller = .returned ∧ s.stores + s.resumes = 1) ∧
      ∃ fs t, s.run S fs = some t ∧ (∀ e, t.step S e = none) ∧ t.caller = .returned ∧
        t.stores + t.resumes = 1 := by
  have h := Reachable.init.run hr
  have hstuck : ∀ {t : Join}, Reachable S t → (∀ e, t.step S e = none) →
      t.caller = .returned ∧ t.stores + t.resumes = 1 := fun ht hst =>
    (stuck_returned hn hm ht hst).imp_right And.right
  obtain ⟨fs, t, hrt, hst⟩ := h.exists_stuck
  exact ⟨(h.counting hn).stores_add_resumes_le,
    fun _ _ hs hlt => (step_moves hs).store_on_caller h.shape hlt, (h.counting hn).settled hm,
    fun hst => ⟨fun _ hj => ready_of_stuck hst hj, hstuck h hst⟩,
    fs, t, hrt, hst, hstuck (h.run hrt) hst⟩

theorem one_wake_up_ready :
    ∃ s, readySetup.init.run readySetup (List.replicate 8 .caller) = some s ∧
      (∀ e, s.step readySetup e = none) ∧ s.caller = .returned ∧ s.stores + s.resumes = 1 := by
  obtain ⟨s, hr, hst⟩ := readySetup_stuck
  exact ⟨s, hr, hst,
    ((one_wake_up readySetup (by decide) (by decide) _ s hr).2.2.2.1 hst).2⟩

/-- For `1 ≤ n ≤ m` every schedule ends: a run from the start has at most as many steps as the
start's rank, and where nothing can move the caller has returned, every leaf is over, and
exactly one flag store or resume was made. -/
theorem schedules_end_returned (S : Setup) (hn : 1 ≤ S.needed) (hm : S.needed ≤ S.size) :
    (∀ es s, S.init.run S es = some s → es.length ≤ S.init.rank S) ∧
      ∀ es s, S.init.run S es = some s → (∀ e, s.step S e = none) →
        s.caller = .returned ∧ s.Settled S ∧ s.stores + s.resumes = 1 :=
  ⟨fun _ _ hr => Nat.le_of_add_right_le (Reachable.init.run_length hr),
    fun _ _ hr hst => stuck_returned hn hm (Reachable.init.run hr) hst⟩

theorem schedules_end_returned_ready :
    ∃ s, readySetup.init.run readySetup (List.replicate 8 .caller) = some s ∧
      (List.replicate 8 Event.caller).length ≤ readySetup.init.rank readySetup ∧
      (∀ e, s.step readySetup e = none) ∧ s.caller = .returned ∧ s.Settled readySetup ∧
      s.stores + s.resumes = 1 := by
  obtain ⟨s, hr, hst⟩ := readySetup_stuck
  have h := schedules_end_returned readySetup (by decide) (by decide)
  exact ⟨s, hr, h.1 _ _ hr, hst, h.2 _ _ hr hst⟩

end PikaLocal.WhenSome
