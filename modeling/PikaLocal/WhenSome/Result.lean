import PikaLocal.WhenSome.Invariant
import Mathlib.Data.List.Nodup

/-! What `operator()` hands back. Every index on `values_.indices` names a leaf that was ready
or had no shared state, and no leaf is pushed twice. The number of indices is not the
threshold, though: the ready path pushes after a stale load of `count_`, and a callback pushes
after its `fetch_add`, possibly once the caller has moved `values_` out. -/
namespace PikaLocal.WhenSome

open Function

variable {S : Setup} {s s' : Join} {e : Event}

/-- The leaf's index is on `values_.indices`. -/
def Leg.pushed : Leg → Bool
  | .direct | .reached _ | .done => true
  | _ => false

/-- The leaf's callback was handed a ready shared state and has not pushed yet. -/
def Leg.handed : Leg → Bool
  | .fired _ | .counted _ _ => true
  | _ => false

/-- Leaf `j` is pushed, by its callback or its ready path; the ready path's increment may be
still to come. -/
def Join.pushed (s : Join) (j : ℕ) : Bool := (s.leg j).pushed || s.caller == .increment j

/-- Leaf `j` has no shared state or a ready one: the code counts it as ready. -/
def Join.available (S : Setup) (s : Join) (j : ℕ) : Bool := !S.hasState j || s.ready j

/-- Every index pushed so far, those moved out first. -/
def Join.log (s : Join) : List ℕ := s.result.getD [] ++ s.indices

/-- `L` lists distinct pushed leaves, each counted as ready. -/
def Logged (S : Setup) (s : Join) (L : List ℕ) : Prop :=
  L.Nodup ∧ ∀ j ∈ L, j < S.size ∧ s.pushed j = true ∧ s.available S j = true

structure Pushes (S : Setup) (s : Join) : Prop where
  log : ∃ L, Logged S s L ∧ s.log = L.map S.tag
  handed : ∀ j, (s.leg j).handed = true → s.ready j = true
  ready_path : ∀ i, s.caller = .push i → s.available S i = true
  result : s.caller ≠ .returned → s.result = none

theorem Moves.ready_mono (hm : Moves S s e s') {j : ℕ} (h : s.ready j = true) :
    s'.ready j = true := by
  cases hm with
  | complete i a _ _ _ _ =>
    by_cases hji : j = i
    · subst hji
      simp
    · simpa [update_noteq hji] using h
  | _ => exact h

theorem Moves.available_mono (hm : Moves S s e s') {j : ℕ} (h : s.available S j = true) :
    s'.available S j = true := by
  simp only [Join.available, Bool.or_eq_true] at h ⊢
  exact h.imp_right hm.ready_mono

theorem pushed_update {l : ℕ → Leg} {i j : ℕ} {x : Leg}
    (hx : (l i).pushed = false ∨ x.pushed = true) (hj : (l j).pushed = true) :
    (update l i x j).pushed = true :=
  (forall_update_iff l fun j y => (l j).pushed = true → y.pushed = true).2
    ⟨fun hi => hx.resolve_left (by simp [hi]), fun _ _ => id⟩ j hj

/-- A pushed leaf stays pushed: a pushed leg only moves on to `done`, and the ready path's
increment gives its leaf the leg `direct`. -/
theorem Moves.pushed_mono (hs : Shape S s) (hm : Moves S s e s') {j : ℕ}
    (hj : s.pushed j = true) : s'.pushed j = true := by
  have hu : ∀ i, s.caller.pos S.size = i → i < S.size → (s.leg i).pushed = false :=
    fun i hp hi => by simp [hs.unvisited_at hi hp, Leg.pushed]
  have hin := hs.inRange
  simp only [Join.pushed, Bool.or_eq_true, beq_iff_eq] at hj ⊢
  cases hm with
  | skip i hc hi _ _ =>
    exact .inl (pushed_update (.inl (hu i (by simp [hc, Caller.pos]) hi))
      (hj.resolve_right (by simp [hc])))
  | register i hc _ =>
    simp only [hc, Caller.inRange] at hin
    exact .inl (pushed_update (.inl (hu i (by simp [hc, Caller.pos]) hin))
      (hj.resolve_right (by simp [hc])))
  | increment i hc _ =>
    simp only [hc, Caller.increment.injEq] at hj
    left
    rcases hj with hj | rfl
    · exact pushed_update (.inr rfl) hj
    · simp [Leg.pushed]
  | fetchAdd i a hl => exact hj.imp_left (pushed_update (.inl (by simp [hl, Leg.pushed])))
  | append i a c hl => exact hj.imp_left (pushed_update (.inr (by split <;> rfl)))
  | resume i a hl _ | store i hl => exact hj.imp_left (pushed_update (.inr rfl))
  | complete i a _ _ _ _ =>
    refine hj.imp_left fun hj => ?_
    dsimp only
    split
    · next hst => exact pushed_update (.inl (by simp [hst, Leg.pushed])) hj
    · exact hj
  | load i hc _ _ _ | readFlag i hc _ _ | pending i hc _ _ _ | available i hc _ _ |
    push i hc _ | signal i hc _ | wakeUp hc _ _ | move hc _ =>
    exact .inl (hj.resolve_right (by simp [hc]))

theorem Logged.keep {L : List ℕ} (h : Logged S s L)
    (hp : ∀ j, s.pushed j = true → s'.pushed j = true)
    (ha : ∀ j, s.available S j = true → s'.available S j = true) : Logged S s' L :=
  ⟨h.1, fun j hj => ⟨(h.2 j hj).1, hp j (h.2 j hj).2.1, ha j (h.2 j hj).2.2⟩⟩

/-- A step that pushes a leaf not pushed before extends the list of logged leaves. -/
theorem Logged.push {L : List ℕ} {i : ℕ} (h : Logged S s L)
    (hp : ∀ j, s.pushed j = true → s'.pushed j = true)
    (ha : ∀ j, s.available S j = true → s'.available S j = true) (hi : i < S.size)
    (hnew : s.pushed i = false) (hi' : s'.pushed i = true) (hai : s'.available S i = true) :
    Logged S s' (L ++ [i]) := by
  have hL : i ∉ L := fun hm => by simp [(h.2 i hm).2.1] at hnew
  refine ⟨h.1.append (List.nodup_singleton i) (by simpa using hL), ?_⟩
  intro j hj
  rcases List.mem_append.mp hj with hj | hj
  · exact (h.keep hp ha).2 j hj
  · rw [List.mem_singleton.mp hj]
    exact ⟨hi, hi', hai⟩

theorem handed_update {r : ℕ → Bool} {l : ℕ → Leg} {i : ℕ} {x : Leg}
    (h : ∀ j, (l j).handed = true → r j = true) (hx : x.handed = true → r i = true) :
    ∀ j, (update l i x j).handed = true → r j = true :=
  (forall_update_iff l fun j y => y.handed = true → r j = true).2 ⟨hx, fun j _ => h j⟩

theorem pushes_init : Pushes S S.init :=
  ⟨⟨[], ⟨List.nodup_nil, by simp⟩, rfl⟩, by simp [Setup.init, Leg.handed], by simp [Setup.init],
    fun _ => rfl⟩

theorem Pushes.moves (hs : Shape S s) (h : Pushes S s) (hm : Moves S s e s') : Pushes S s' := by
  have hp := fun j => hm.pushed_mono hs (j := j)
  have ha := fun j => hm.available_mono (j := j)
  have hr := fun j => hm.ready_mono (j := j)
  obtain ⟨L, hL, hlog⟩ := h.log
  have hin := hs.inRange
  have hkeep : s'.log = s.log → ∃ L, Logged S s' L ∧ s'.log = L.map S.tag :=
    fun he => ⟨L, hL.keep hp ha, he.trans hlog⟩
  cases hm with
  | load i hc _ _ _ | pending i hc _ _ _ | signal i hc _ | wakeUp hc _ _ =>
    exact ⟨hkeep rfl, h.handed, by simp, by simp [h.result, hc]⟩
  | readFlag i hc _ _ =>
    exact ⟨hkeep rfl, h.handed, by split <;> simp, fun _ => h.result (by simp [hc])⟩
  | skip i hc _ _ _ =>
    exact ⟨hkeep rfl, handed_update h.handed (by simp [Leg.handed]), by simp,
      fun _ => h.result (by simp [hc])⟩
  | available i hc hav _ =>
    refine ⟨hkeep rfl, h.handed, fun j hj => ?_, fun _ => h.result (by simp [hc])⟩
    simp only [Caller.push.injEq] at hj
    subst hj
    simpa [Join.available] using hav
  | register i hc _ =>
    refine ⟨hkeep rfl, handed_update h.handed fun hx => ?_, by simp,
      fun _ => h.result (by simp [hc])⟩
    split at hx
    · assumption
    · simp [Leg.handed] at hx
  | push i hc _ =>
    simp only [hc, Caller.inRange] at hin
    have hnew : s.pushed i = false := by
      simp [Join.pushed, hc, hs.unvisited_at hin (by simp [hc, Caller.pos]), Leg.pushed]
    refine ⟨⟨L ++ [i], hL.push hp ha hin hnew (by simp [Join.pushed])
      (ha i (h.ready_path i hc)), by simp [Join.log, ← hlog, h.result (by simp [hc])]⟩,
      h.handed, by simp, fun _ => h.result (by simp [hc])⟩
  | increment i hc _ =>
    exact ⟨hkeep rfl, handed_update h.handed (by simp [Leg.handed]), by split <;> simp,
      fun _ => h.result (by simp [hc])⟩
  | move hc _ =>
    refine ⟨hkeep ?_, h.handed, by simp, by simp⟩
    simp [Join.log, h.result (by simp [hc])]
  | fetchAdd i a hl =>
    exact ⟨hkeep rfl, handed_update h.handed fun _ => h.handed i (by simp [hl, Leg.handed]),
      h.ready_path, h.result⟩
  | append i a c hl =>
    have hi := hs.lt_of_visited (j := i) (by simp [hl])
    have hnc : s.caller ≠ .increment i := fun hc => by
      simp only [hc, Caller.inRange] at hin
      simp [hs.unvisited_at hin (by simp [hc, Caller.pos])] at hl
    have hnew : s.pushed i = false := by simp [Join.pushed, hl, Leg.pushed, hnc]
    have hav : s.available S i = true := by
      simp [Join.available, h.handed i (by simp [hl, Leg.handed])]
    refine ⟨⟨L ++ [i], hL.push hp ha hi hnew
      (by simp only [Join.pushed, update_same, Bool.or_eq_true]; left; split <;> rfl) (ha i hav),
      by simp [Join.log, ← hlog]⟩, handed_update h.handed (by split <;> simp [Leg.handed]),
      h.ready_path, h.result⟩
  | resume i a hl _ | store i hl =>
    exact ⟨hkeep rfl, handed_update h.handed (by simp [Leg.handed]), h.ready_path, h.result⟩
  | complete i a _ _ _ _ =>
    refine ⟨hkeep rfl, fun j hj => ?_, fun j hj => ha j (h.ready_path j hj), h.result⟩
    dsimp only at hj ⊢
    split at hj
    · exact handed_update (fun j hj => hr j (h.handed j hj)) (by simp) j hj
    · exact hr j (h.handed j hj)

theorem Reachable.pushes (h : Reachable S s) : Pushes S s := by
  induction h with
  | init => exact pushes_init
  | step _ hr hs ih => exact ih.moves hr.shape (step_moves hs)

/-- When `operator()` moves `values_` out, under every interleaving, its indices name distinct
leaves, each ready or without a shared state. -/
theorem indices_at_move (h : Reachable S s) (hc : s.caller = .running) :
    ∃ L : List ℕ, L.Nodup ∧ s.indices = L.map S.tag ∧
      ∀ j ∈ L, j < S.size ∧ (S.hasState j = false ∨ s.ready j = true) := by
  obtain ⟨⟨L, ⟨hnd, hL⟩, hlog⟩, -, -, hres⟩ := h.pushes
  refine ⟨L, hnd, by simpa [Join.log, hres (by simp [hc])] using hlog,
    fun j hj => ⟨(hL j hj).1, ?_⟩⟩
  simpa [Join.available] using (hL j hj).2.2

/-- For a range of `m` futures the indices handed back are distinct positions below `m`, each
of a future that is ready or has no shared state. -/
theorem range_indices_at_move {F : Type} {n : ℕ} {fs : List F} {hs ra : ℕ → Bool}
    {ctx : Agent} (h : Reachable (Setup.ofRange n fs hs ra ctx) s) (hc : s.caller = .running) :
    s.indices.Nodup ∧ ∀ t ∈ s.indices, t < fs.length ∧ (hs t = false ∨ s.ready t = true) := by
  obtain ⟨L, hnd, hi, hL⟩ := indices_at_move h hc
  have hid : L.map (Setup.ofRange n fs hs ra ctx).tag = L :=
    (List.map_congr_left fun j hj => Setup.ofRange_tag (hL j hj).1).trans (List.map_id L)
  rw [hi, hid]
  exact ⟨hnd, hL⟩

/-- Two futures, one needed; leaf 1 is ready from the start. -/
def staleSetup : Setup := Setup.ofRange 1 [(), ()] (fun _ => true) (· == 1) 0

/-- The walk registers leaf 0 and loads `count_ = 0` at leaf 1; leaf 0 completes on agent 1
and its callback counts, pushes and resumes the caller; the ready path then pushes leaf 1. -/
def staleRun : List Event :=
  [.caller, .caller, .caller, .caller, .complete 0 1, .callback 0, .callback 0, .callback 0,
    .caller, .caller, .caller, .caller, .caller, .caller]

theorem range_indices_at_move_stale :
    ∃ s, staleSetup.init.run staleSetup (staleRun.take 13) = some s ∧ s.caller = .running ∧
      s.indices = [0, 1] ∧ s.indices.Nodup :=
  ⟨_, rfl, rfl, rfl, (range_indices_at_move (Reachable.init.run
    (rfl : staleSetup.init.run staleSetup (staleRun.take 13) = some _)) rfl).1⟩

/-- Two futures, both needed, neither ready. -/
def lateSetup : Setup := Setup.ofRange 2 [(), ()] (fun _ => true) (fun _ => false) 0

/-- The walk registers both leaves and suspends; leaf 0 completes on agent 1 and leaf 1 on
agent 2; leaf 0's callback counts, then leaf 1's counts, pushes and resumes the caller, which
moves `values_` out. -/
def lateRun : List Event :=
  List.replicate 7 .caller ++ [.complete 0 1, .complete 1 2, .callback 0, .callback 1,
    .callback 1, .callback 1, .caller, .caller]

/-- For a range of two futures the caller can be handed two indices when one is needed, and
one when both are. -/
theorem result_length_ne_needed :
    (∃ s, staleSetup.init.run staleSetup staleRun = some s ∧ s.caller = .returned ∧
      s.count = 2 ∧ s.result = some [0, 1]) ∧
    ∃ s, lateSetup.init.run lateSetup lateRun = some s ∧ s.caller = .returned ∧
      s.count = 2 ∧ s.result = some [1] :=
  ⟨⟨_, rfl, rfl, rfl, rfl⟩, _, rfl, rfl, rfl, rfl⟩

/-- After `lateRun` the caller has returned while leaf 0's callback is between its `fetch_add`
and its push; the push then lands in the moved-from `values_`. -/
theorem push_after_hand_off :
    ∃ s, lateSetup.init.run lateSetup lateRun = some s ∧ s.caller = .returned ∧
      s.leg 0 = .counted 1 1 ∧ ∃ s', s.step lateSetup (.callback 0) = some s' ∧
        s'.indices = [0] ∧ s'.result = some [1] :=
  ⟨_, rfl, rfl, rfl, _, rfl, rfl, rfl⟩

end PikaLocal.WhenSome
