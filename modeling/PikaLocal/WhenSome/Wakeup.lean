import PikaLocal.WhenSome.Invariant

/-! The wake-up of the caller. Exactly one increment observes `needed_count_`, and it ends in
one flag store on the caller's agent before the flag is read, or in one resume. A threshold
above the number of leaves is never observed, so nothing wakes the caller. -/
namespace PikaLocal.WhenSome

variable {S : Setup} {s s' : Join} {e : Event}

/-- The leaf's part of the join is over: it was skipped, or its callback has returned. -/
def Leg.settled : Leg → Bool
  | .skipped | .direct | .late | .done => true
  | _ => false

theorem Leg.holds_of_settled {l : Leg} (n : ℕ) (h : l.settled = true) : l.holds n = false := by
  cases l <;> simp_all [Leg.settled, Leg.holds]

theorem Leg.counts_of_settled {l : Leg} (h : l.settled = true) (hs : l ≠ .skipped) :
    l.counts = true := by
  cases l <;> simp_all [Leg.settled, Leg.counts]

theorem Caller.holds_of_read {c : Caller} (h : c.beforeRead = false) : c.holds = false := by
  cases c <;> simp_all [Caller.beforeRead, Caller.holds]

/-- The caller has read the flag and every leaf's part is over. -/
def Join.Settled (S : Setup) (s : Join) : Prop :=
  s.caller.beforeRead = false ∧ ∀ j < S.size, (s.leg j).settled = true

instance (S : Setup) (s : Join) : Decidable (s.Settled S) :=
  inferInstanceAs (Decidable (_ ∧ ∀ j < S.size, (s.leg j).settled = true))

theorem Counting.stores_add_resumes_le (h : Counting S s) : s.stores + s.resumes ≤ 1 := by
  have ht := h.token
  split_ifs at ht <;> omega

/-- With `needed_count_` at most the number of leaves, the threshold is met once every leaf is
over: a leaf is skipped only after it is met, and otherwise every leaf incremented `count_`. -/
theorem Counting.needed_le_count (h : Counting S s) (hm : S.needed ≤ S.size)
    (hs : ∀ j < S.size, (s.leg j).settled = true) : S.needed ≤ s.count := by
  by_cases hsk : ∃ j < S.size, s.leg j = .skipped
  · obtain ⟨j, hj, hsk⟩ := hsk
    exact h.skipped j hj hsk
  · push_neg at hsk
    rw [h.count_eq,
      tally_eq_size (p := Leg.counts ∘ s.leg) fun j hj =>
        Leg.counts_of_settled (hs j hj) (hsk j hj)]
    exact hm

theorem Counting.settled (h : Counting S s) (hm : S.needed ≤ S.size) (hs : s.Settled S) :
    s.stores + s.resumes = 1 := by
  have ht := h.token
  rw [Caller.holds_of_read hs.1,
    tally_eq_zero (p := Leg.holds S.needed ∘ s.leg) fun j hj => Leg.holds_of_settled _ (hs.2 j hj),
    if_pos (h.needed_le_count hm hs.2)] at ht
  simpa using ht

/-- A flag store is made on the caller's agent, by its ready path or by a callback it runs
inline, and before the caller reads the flag. -/
theorem Moves.store_on_caller (h : Shape S s) (hm : Moves S s e s')
    (hlt : s.stores < s'.stores) : s.caller.beforeRead = true ∧
      (e = .caller ∨ ∃ i, e = .callback i ∧ (s.leg i).runsOn S.ctx = true) := by
  cases hm with
  | signal i hc _ => exact ⟨by simp [hc, Caller.beforeRead], .inl rfl⟩
  | store i hl =>
    have hon : (s.leg i).runsOn S.ctx = true := by simp [hl, Leg.runsOn]
    exact ⟨h.inline i (h.lt_of_visited (by simp [hl])) hon, .inr ⟨i, rfl, hon⟩⟩
  | _ => simp at hlt

/-- Two futures, both ready, one needed: the ready path of leaf 0 meets the threshold and
stores the flag, leaf 1 is skipped, and the caller does not suspend. -/
def readySetup : Setup := Setup.ofRange 1 [(), ()] (fun _ => true) (fun _ => true) 0

/-- A threshold above the number of leaves is never met: nothing stores the flag or resumes
the caller, and the caller never gets past its suspension. -/
theorem never_woken (hn : 1 ≤ S.needed) (hlt : S.size < S.needed) (h : Reachable S s) :
    s.stores + s.resumes = 0 ∧ s.caller ≠ .running ∧ s.caller ≠ .returned := by
  have hc := h.counting hn
  have hcount : s.count < S.needed := hc.count_eq ▸ (tally_le _ _).trans_lt hlt
  have ht := hc.token
  rw [if_neg (show ¬S.needed ≤ s.count by omega)] at ht
  refine ⟨by omega, fun hr => ?_, fun hr => ?_⟩ <;>
    [have := hc.past (.inl hr); have := hc.past (.inr hr)] <;> omega

/-- The join of `when_some(2, vector<future>{}, f)`: one pending leaf, two needed. -/
def hangSetup : Setup :=
  Setup.ofTuple 2 [.range [], .future ()] (fun _ => true) (fun _ => false) 0

/-- The walk registers the leaf and suspends; the leaf completes and its callback counts to 1
and pushes. -/
def hangRun : List Event :=
  [.caller, .caller, .caller, .caller, .complete 0 1, .callback 0, .callback 0]

theorem never_woken_hang :
    ∃ s, hangSetup.init.run hangSetup hangRun = some s ∧ s.caller = .suspended ∧
      s.stores + s.resumes = 0 ∧ s.caller ≠ .running ∧ s.caller ≠ .returned :=
  ⟨_, rfl, rfl, never_woken (by decide) (by decide)
    (Reachable.init.run (rfl : hangSetup.init.run hangSetup hangRun = some _))⟩

/-- `when_some(2, vector<future>{}, f)` passes the bound check, which counts the two
arguments, but the walk finds one leaf: whatever that leaf's state and the schedule, the caller
is never woken. `when_some(3, f, vector{f1, f2})` is refused though it has three leaves. -/
theorem whenSome_bound_counts_arguments :
    whenSome 2 [Arg.range [], .future ()] = .join 2 ∧
      (leaves [Arg.range [], .future ()]).length = 1 ∧
      (∀ hs ra ctx s, Reachable (Setup.ofTuple 2 [Arg.range [], .future ()] hs ra ctx) s →
        s.caller ≠ .running ∧ s.caller ≠ .returned) ∧
      whenSome 3 [Arg.future (), .range [(), ()]] = .failed outOfBounds ∧
      (leaves [Arg.future (), .range [(), ()]]).length = 3 :=
  ⟨rfl, rfl, fun _ _ _ _ h => (never_woken (by simp [Setup.ofTuple])
    (by simp [Setup.ofTuple, leaves]) h).2, rfl, rfl⟩

/-- The assertion `count_ >= needed_count_` of `operator()` holds whenever the caller has got
past the flag or its suspension. -/
theorem needed_le_count_of_running (hn : 1 ≤ S.needed) (h : Reachable S s)
    (hc : s.caller = .running) : S.needed ≤ s.count := by
  have hi := h.counting hn
  have := hi.past (.inl hc)
  have ht := hi.token
  by_contra hlt
  rw [if_neg hlt] at ht
  omega

theorem needed_le_count_of_running_ready :
    ∃ s, readySetup.init.run readySetup (List.replicate 7 .caller) = some s ∧
      s.caller = .running ∧ readySetup.needed ≤ s.count :=
  ⟨_, rfl, rfl, needed_le_count_of_running (by decide) (Reachable.init.run
    (rfl : readySetup.init.run readySetup (List.replicate 7 .caller) = some _)) rfl⟩

end PikaLocal.WhenSome
