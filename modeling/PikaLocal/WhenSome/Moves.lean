import PikaLocal.WhenSome.Join

/-! The steps of the join listed one by one, with their guards: every successful `Join.step`
is one of these moves. Invariants are proved by cases on the move. -/
namespace PikaLocal.WhenSome

open Function

variable {S : Setup}

inductive Moves (S : Setup) : Join → Event → Join → Prop
  | load (s : Join) (i : ℕ) : s.caller = .visit i → i < S.size → s.count < S.needed →
      s.busy S = false → Moves S s .caller { s with caller := .inspect i }
  | skip (s : Join) (i : ℕ) : s.caller = .visit i → i < S.size → S.needed ≤ s.count →
      s.busy S = false →
      Moves S s .caller { s with caller := .visit (i + 1), leg := update s.leg i .skipped }
  | readFlag (s : Join) (i : ℕ) : s.caller = .visit i → S.size ≤ i → s.busy S = false →
      Moves S s .caller { s with caller := if s.goal then .running else .suspended }
  | pending (s : Join) (i : ℕ) : s.caller = .inspect i → S.hasState i = true →
      s.ready i = false → s.busy S = false → Moves S s .caller { s with caller := .register i }
  | available (s : Join) (i : ℕ) : s.caller = .inspect i →
      (S.hasState i = false ∨ s.ready i = true) → s.busy S = false →
      Moves S s .caller { s with caller := .push i }
  | register (s : Join) (i : ℕ) : s.caller = .register i → s.busy S = false →
      Moves S s .caller { s with
        caller := .visit (i + 1)
        leg := update s.leg i (if s.ready i then .fired S.ctx else .stored) }
  | push (s : Join) (i : ℕ) : s.caller = .push i → s.busy S = false →
      Moves S s .caller { s with caller := .increment i, indices := s.indices ++ [S.tag i] }
  | increment (s : Join) (i : ℕ) : s.caller = .increment i → s.busy S = false →
      Moves S s .caller { s with
        count := s.count + 1
        leg := update s.leg i .direct
        caller := if s.count + 1 = S.needed then .signal i else .visit (i + 1) }
  | signal (s : Join) (i : ℕ) : s.caller = .signal i → s.busy S = false →
      Moves S s .caller
        { s with goal := true, stores := s.stores + 1, caller := .visit (i + 1) }
  | wakeUp (s : Join) : s.caller = .suspended → s.wake = true → s.busy S = false →
      Moves S s .caller { s with wake := false, caller := .running }
  | move (s : Join) : s.caller = .running → s.busy S = false →
      Moves S s .caller { s with result := some s.indices, indices := [], caller := .returned }
  | fetchAdd (s : Join) (i : ℕ) (a : Agent) : s.leg i = .fired a →
      Moves S s (.callback i) { s with
        count := s.count + 1
        leg := update s.leg i
          (if s.count + 1 ≤ S.needed then .counted a (s.count + 1) else .late) }
  | append (s : Join) (i : ℕ) (a : Agent) (c : ℕ) : s.leg i = .counted a c →
      Moves S s (.callback i) { s with
        indices := s.indices ++ [S.tag i]
        leg := update s.leg i (if c = S.needed then .reached a else .done) }
  | resume (s : Join) (i : ℕ) (a : Agent) : s.leg i = .reached a → S.ctx ≠ a →
      Moves S s (.callback i)
        { s with wake := true, resumes := s.resumes + 1, leg := update s.leg i .done }
  | store (s : Join) (i : ℕ) : s.leg i = .reached S.ctx →
      Moves S s (.callback i)
        { s with goal := true, stores := s.stores + 1, leg := update s.leg i .done }
  | complete (s : Join) (i : ℕ) (a : Agent) : i < S.size → S.hasState i = true →
      s.ready i = false → (a ≠ S.ctx ∨ s.caller.deferring = true ∧ s.busy S = false) →
      Moves S s (.complete i a) { s with
        ready := update s.ready i true
        leg := if s.leg i = .stored then update s.leg i (.fired a) else s.leg }

theorem callerStep_moves {s s' : Join} (hb : s.busy S = false) (h : s.callerStep S = some s') :
    Moves S s .caller s' := by
  unfold Join.callerStep at h
  split at h
  case h_1 i hc =>
    by_cases hi : i < S.size
    · simp only [hi, ↓reduceIte] at h
      split_ifs at h with hlt <;> cases h
      · exact .load s i hc hi hlt hb
      · exact .skip s i hc hi (by omega) hb
    · simp only [hi, ↓reduceIte, Option.some.injEq] at h
      subst h
      exact .readFlag s i hc (by omega) hb
  case h_2 i hc =>
    split_ifs at h with hp <;> cases h
    · simp only [Bool.and_eq_true, Bool.not_eq_true'] at hp
      exact .pending s i hc hp.1 hp.2 hb
    · simp only [Bool.and_eq_true, Bool.not_eq_true', not_and, Bool.not_eq_false] at hp
      refine .available s i hc ?_ hb
      cases hs : S.hasState i
      · exact .inl rfl
      · exact .inr (hp hs)
  case h_3 i hc => cases h; exact .register s i hc hb
  case h_4 i hc => cases h; exact .push s i hc hb
  case h_5 i hc => cases h; exact .increment s i hc hb
  case h_6 i hc => cases h; exact .signal s i hc hb
  case h_7 hc =>
    split_ifs at h with hw
    cases h
    exact .wakeUp s hc hw hb
  case h_8 hc => cases h; exact .move s hc hb
  case h_9 => cases h

theorem onFutureReady_moves {s s' : Join} {i : ℕ} (h : s.onFutureReady S i = some s') :
    Moves S s (.callback i) s' := by
  unfold Join.onFutureReady at h
  split at h
  case h_1 a hl => cases h; exact .fetchAdd s i a hl
  case h_2 a c hl => cases h; exact .append s i a c hl
  case h_3 a hl =>
    split_ifs at h with ha <;> cases h
    · exact .resume s i a hl ha
    · rw [not_not] at ha
      subst ha
      exact .store s i hl
  case h_4 => cases h

/-- Every step the join takes is one of the listed moves. -/
theorem step_moves {s s' : Join} {e : Event} (h : s.step S e = some s') : Moves S s e s' := by
  cases e with
  | caller =>
    unfold Join.step at h
    split_ifs at h with hb
    exact callerStep_moves (by simpa using hb) h
  | callback i => exact onFutureReady_moves h
  | complete i a =>
    simp only [Join.step, Join.complete] at h
    by_cases hg : i < S.size ∧ S.hasState i = true ∧ s.ready i = false ∧
      (a ≠ S.ctx ∨ s.caller.deferring = true ∧ s.busy S = false)
    · rw [if_pos hg, Option.some.injEq] at h
      subst h
      exact .complete s i a hg.1 hg.2.1 hg.2.2.1 hg.2.2.2
    · rw [if_neg hg] at h
      cases h

end PikaLocal.WhenSome
