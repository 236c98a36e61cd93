import PikaLocal.WhenSome.Moves

/-! Invariants of the join over every interleaving. `Shape` says where the walk is and what
it left behind; `Counting` ties `count_` to the leaves that incremented it and shows that
exactly one increment, the one that observed `needed_count_`, leads to a flag store or a
resume. -/
namespace PikaLocal.WhenSome

open Function

/-- `f 0 + ... + f (m - 1)`, over the leaves. -/
def total : ℕ → (ℕ → ℕ) → ℕ
  | 0, _ => 0
  | m + 1, f => total m f + f m

theorem total_succ (m : ℕ) (f : ℕ → ℕ) : total (m + 1) f = total m f + f m := rfl

theorem total_congr {m : ℕ} {f g : ℕ → ℕ} (h : ∀ j < m, f j = g j) : total m f = total m g := by
  induction m with
  | zero => rfl
  | succ m ih => rw [total_succ, total_succ, ih fun j hj => h j (by omega), h m (by omega)]

theorem total_const (m c : ℕ) : total m (fun _ => c) = m * c := by
  induction m with
  | zero => exact (Nat.zero_mul c).symm
  | succ m ih => rw [total_succ, ih, Nat.succ_mul]

/-- Changing `f` at one leaf moves the total by the difference there. -/
theorem total_update {m i : ℕ} (hi : i < m) (f : ℕ → ℕ) (x : ℕ) :
    total m (update f i x) + f i = total m f + x := by
  induction m with
  | zero => omega
  | succ m ih =>
    rw [total_succ, total_succ]
    rcases Nat.lt_succ_iff_lt_or_eq.mp hi with hi | rfl
    · rw [update_noteq (by omega)]
      have := ih hi
      omega
    · rw [update_same, total_congr (g := f) fun j hj => update_noteq (by omega) x f]
      omega

/-- The number of leaves `j < m` with `p j`. -/
def tally (m : ℕ) (p : ℕ → Bool) : ℕ := total m fun j => if p j then 1 else 0

theorem tally_update {m i : ℕ} (hi : i < m) (p : ℕ → Bool) (b : Bool) :
    tally m (update p i b) + (if p i then 1 else 0) = tally m p + if b then 1 else 0 := by
  have e : (fun j => if update p i b j then 1 else 0) =
      update (fun j => if p j then 1 else 0) i (if b then 1 else 0) :=
    funext fun j => apply_update (fun _ (b : Bool) => if b then 1 else 0) p i b j
  unfold tally
  rw [e]
  exact total_update hi _ _

theorem tally_le (m : ℕ) (p : ℕ → Bool) : tally m p ≤ m :=
  calc tally m p ≤ total m (fun _ => 1) := by
        induction m with
        | zero => rfl
        | succ m ih => simp only [tally, total_succ] at ih ⊢; split <;> omega
    _ = m := (total_const m 1).trans (Nat.mul_one m)

theorem tally_eq_size {m : ℕ} {p : ℕ → Bool} (h : ∀ j < m, p j = true) : tally m p = m := by
  rw [tally, total_congr (g := fun _ => 1) fun j hj => if_pos (h j hj), total_const, Nat.mul_one]

theorem tally_eq_zero {m : ℕ} {p : ℕ → Bool} (h : ∀ j < m, p j = false) : tally m p = 0 := by
  rw [tally, total_congr (g := fun _ => 0) fun j hj => by simp [h j hj], total_const, Nat.mul_zero]

namespace Leg

/-- The leaf's `count_.fetch_add` has happened. -/
def counts : Leg → Bool
  | .direct | .counted _ _ | .reached _ | .late | .done => true
  | _ => false

/-- The leaf's `fetch_add` observed `needed_count_`; its resume or flag store is to come. -/
def holds (n : ℕ) : Leg → Bool
  | .counted _ c => decide (c = n)
  | .reached _ => true
  | _ => false

end Leg

namespace Caller

/-- How many leaves the walk has finished. -/
def pos (m : ℕ) : Caller → ℕ
  | .visit i | .inspect i | .register i | .push i | .increment i => i
  | .signal i => i + 1
  | .suspended | .running | .returned => m

/-- The caller has not yet read `goal_reached_on_calling_thread_`. -/
def beforeRead : Caller → Bool
  | .suspended | .running | .returned => false
  | _ => true

/-- The walk's leaf is one of the `m` leaves, or just past the last. -/
def inRange (m : ℕ) : Caller → Prop
  | .visit i => i ≤ m
  | .inspect i | .register i | .push i | .increment i | .signal i => i < m
  | _ => True

/-- The ready path's `fetch_add` observed `needed_count_`; the flag store is to come. -/
def holds : Caller → Bool
  | .signal _ => true
  | _ => false

end Caller

variable {S : Setup} {s s' : Join} {e : Event}

theorem Join.runsOn_of_busy (hb : s.busy S = false) {j : ℕ} (hj : j < S.size) :
    (s.leg j).runsOn S.ctx = false := by
  simpa [Join.busy, hj] using List.any_eq_false.mp hb j

/-- Where the walk is, what it left behind, and that inline callbacks run only while the
caller is still in its walk. -/
structure Shape (S : Setup) (s : Join) : Prop where
  inRange : s.caller.inRange S.size
  visited : ∀ j < S.size, (j < s.caller.pos S.size ↔ s.leg j ≠ .unvisited)
  register : ∀ i, s.caller = .register i → S.hasState i = true
  stored : ∀ j < S.size, s.leg j = .stored → s.ready j = false ∧ S.hasState j = true
  inline : ∀ j < S.size, (s.leg j).runsOn S.ctx = true → s.caller.beforeRead = true
  outside : ∀ j, S.size ≤ j → s.leg j = .unvisited

theorem shape_init : Shape S S.init := by
  refine ⟨by simp [Setup.init, Caller.inRange], ?_, ?_, ?_, ?_, ?_⟩ <;>
    simp [Setup.init, Caller.pos, Leg.runsOn]

theorem Shape.lt_of_visited (h : Shape S s) {j : ℕ} (hj : s.leg j ≠ .unvisited) : j < S.size :=
  Nat.lt_of_not_le fun hle => hj (h.outside j hle)

theorem outside_update {m i : ℕ} {leg : ℕ → Leg} {x : Leg} (hi : i < m)
    (h : ∀ j, m ≤ j → leg j = .unvisited) : ∀ j, m ≤ j → update leg i x j = .unvisited :=
  fun j hj => by rw [update_noteq (by omega)]; exact h j hj

/-- Replacing the leg of leaf `i` by a visited one keeps the other leaves' clauses. -/
theorem visited_update {m i p : ℕ} {leg : ℕ → Leg} {x : Leg} (hx : x ≠ .unvisited)
    (hi : i < p) (h : ∀ j < m, j ≠ i → (j < p ↔ leg j ≠ .unvisited)) :
    ∀ j < m, (j < p ↔ update leg i x j ≠ .unvisited) :=
  (forall_update_iff leg fun j y => j < m → (j < p ↔ y ≠ .unvisited)).2
    ⟨fun _ => iff_of_true hi hx, fun j hji hj => h j hj hji⟩

/-- Replacing the leg of leaf `i` keeps the stored-leaf clause when a stored leg there still
waits for its future. -/
theorem Shape.stored_update (h : Shape S s) {i : ℕ} {x : Leg}
    (hx : x = .stored → s.ready i = false ∧ S.hasState i = true) :
    ∀ j < S.size, update s.leg i x j = .stored → s.ready j = false ∧ S.hasState j = true :=
  (forall_update_iff s.leg fun j y => j < S.size → y = .stored →
    s.ready j = false ∧ S.hasState j = true).2 ⟨fun _ => hx, fun j _ => h.stored j⟩

/-- A callback's step: the leg of leaf `i` moves on, on the same agent or to `done`. -/
theorem Shape.of_leg (h : Shape S s) {i : ℕ} {x : Leg} (hc : s'.caller = s.caller)
    (hr : s'.ready = s.ready) (hl : s'.leg = update s.leg i x) (hi : s.leg i ≠ .unvisited)
    (hx : x ≠ .unvisited ∧ x ≠ .stored)
    (hon : x.runsOn S.ctx = true → (s.leg i).runsOn S.ctx = true) :
    Shape S s' := by
  have hlt := h.lt_of_visited hi
  refine ⟨hc ▸ h.inRange, ?_, fun i' hi' => h.register i' (hc ▸ hi'), ?_, ?_,
    hl ▸ outside_update hlt h.outside⟩
  · rw [hc, hl]
    exact visited_update hx.1 ((h.visited i hlt).2 hi) fun j hj _ => h.visited j hj
  · rw [hr, hl]
    exact h.stored_update fun hs => absurd hs hx.2
  · rw [hc, hl]
    exact (forall_update_iff s.leg fun j y => j < S.size → y.runsOn S.ctx = true →
      s.caller.beforeRead = true).2 ⟨fun hj hx => h.inline i hj (hon hx), fun j _ => h.inline j⟩

/-- A step of the caller that moves only the caller: the leaves are as they were. -/
theorem Shape.of_caller (h : Shape S s) (hl : s'.leg = s.leg) (hr : s'.ready = s.ready)
    (hin : s'.caller.inRange S.size) (hp : s'.caller.pos S.size = s.caller.pos S.size)
    (hb : s'.caller.beforeRead = true ∨ ∀ j < S.size, (s.leg j).runsOn S.ctx = false)
    (hreg : ∀ i, s'.caller = .register i → S.hasState i = true) : Shape S s' := by
  refine ⟨hin, fun j hj => ?_, hreg, fun j hj hs => ?_, fun j hj hon => ?_, hl ▸ h.outside⟩
  · rw [hp, hl]
    exact h.visited j hj
  · rw [hr]
    rw [hl] at hs
    exact h.stored j hj hs
  · rw [hl] at hon
    rcases hb with hb | hb
    · exact hb
    · simp [hb j hj] at hon

/-- The walk finishes leaf `i` and gives it a visited leg. -/
theorem Shape.of_finish (h : Shape S s) {i : ℕ} {x : Leg} (hc : s.caller.pos S.size = i)
    (hi : i < S.size)
    (hx : x ≠ .unvisited ∧ (x = .stored → s.ready i = false ∧ S.hasState i = true))
    (hl : s'.leg = update s.leg i x) (hr : s'.ready = s.ready)
    (hin : s'.caller.inRange S.size) (hp : s'.caller.pos S.size = i + 1)
    (hb : s'.caller.beforeRead = true) (hreg : ∀ i, s'.caller = .register i → S.hasState i = true) :
    Shape S s' := by
  refine ⟨hin, ?_, hreg, ?_, fun _ _ _ => hb, hl ▸ outside_update hi h.outside⟩
  · rw [hp, hl]
    refine visited_update hx.1 (by omega) fun j hj hji => ?_
    rw [← h.visited j hj, hc]
    omega
  · rw [hr, hl]
    exact h.stored_update hx.2

theorem Shape.moves (h : Shape S s) (hm : Moves S s e s') : Shape S s' := by
  have hin := h.inRange
  cases hm with
  | load i hc hi _ _ =>
    exact h.of_caller rfl rfl hi (by simp [hc, Caller.pos]) (.inl rfl) (by simp)
  | skip i hc hi _ _ =>
    exact h.of_finish (by simp [hc, Caller.pos]) hi (by simp) rfl rfl hi rfl rfl (by simp)
  | readFlag i hc hi hb =>
    simp only [hc, Caller.inRange] at hin
    refine h.of_caller rfl rfl (by split <;> trivial) ?_
      (.inr fun j hj => Join.runsOn_of_busy hb hj) (by split <;> simp)
    rw [hc]
    split <;> simp only [Caller.pos] <;> omega
  | pending i hc hs _ _ =>
    simp only [hc, Caller.inRange] at hin
    exact h.of_caller rfl rfl hin (by simp [hc, Caller.pos]) (.inl rfl) (by simp [hs])
  | available i hc _ _ | push i hc _ | signal i hc _ =>
    simp only [hc, Caller.inRange] at hin
    exact h.of_caller rfl rfl hin (by simp [hc, Caller.pos]) (.inl rfl) (by simp)
  | register i hc _ =>
    simp only [hc, Caller.inRange] at hin
    refine h.of_finish (by simp [hc, Caller.pos]) hin ⟨by split <;> simp, fun hx => ?_⟩ rfl rfl
      hin rfl rfl (by simp)
    split at hx
    · cases hx
    · exact ⟨by simpa using ‹¬s.ready i = true›, h.register i hc⟩
  | increment i hc _ =>
    simp only [hc, Caller.inRange] at hin
    exact h.of_finish (by simp [hc, Caller.pos]) hin (by simp) rfl rfl
      (by split <;> simp only [Caller.inRange] <;> omega) (by split <;> simp [Caller.pos])
      (by split <;> rfl) (by split <;> simp)
  | wakeUp hc _ _ | move hc _ =>
    refine h.of_caller rfl rfl trivial (by simp [hc, Caller.pos]) (.inr fun j hj => ?_) (by simp)
    by_contra hon
    simpa [hc, Caller.beforeRead] using h.inline j hj (by simpa using hon)
  | fetchAdd i a hl | append i a _ hl =>
    refine h.of_leg rfl rfl rfl (by simp [hl]) (by split <;> simp) fun hon => ?_
    split at hon
    · simpa [hl, Leg.runsOn] using hon
    · simp [Leg.runsOn] at hon
  | resume i _ hl _ | store i hl =>
    exact h.of_leg rfl rfl rfl (by simp [hl]) (by simp) (by simp [Leg.runsOn])
  | complete i a hi _ _ ha =>
    by_cases hst : s.leg i = .stored
    · rw [if_pos hst]
      refine ⟨hin, visited_update (by simp) ((h.visited i hi).2 (by simp [hst]))
        fun j hj _ => h.visited j hj, h.register, fun j hj hs => ?_, fun j hj hon => ?_,
        outside_update hi h.outside⟩
      · by_cases hji : j = i
        · subst hji
          simp at hs
        · simpa [update_noteq hji] using h.stored j hj (by simpa [update_noteq hji] using hs)
      · by_cases hji : j = i
        · subst hji
          simp only [update_same, Leg.runsOn, beq_iff_eq] at hon
          subst hon
          rcases ha with ha | ⟨hd, -⟩
          · exact absurd rfl ha
          · revert hd
            cases s.caller <;> simp [Caller.deferring, Caller.beforeRead]
        · exact h.inline j hj (by simpa [update_noteq hji] using hon)
    · rw [if_neg hst]
      refine ⟨hin, h.visited, h.register, fun j hj hs => ?_, h.inline, h.outside⟩
      by_cases hji : j = i
      · exact absurd (hji ▸ hs) hst
      · simpa [update_noteq hji] using h.stored j hj hs

theorem Shape.unvisited_at (h : Shape S s) {i : ℕ} (hi : i < S.size)
    (hp : s.caller.pos S.size = i) : s.leg i = .unvisited := by
  simpa [hp] using h.visited i hi

theorem tally_comp_update {m i : ℕ} (hi : i < m) (f : Leg → Bool) (l : ℕ → Leg) (x : Leg) :
    tally m (f ∘ update l i x) + (if f (l i) then 1 else 0) =
      tally m (f ∘ l) + if f x then 1 else 0 := by
  rw [comp_update]
  exact tally_update hi (f ∘ l) (f x)

theorem tally_comp_update_of_eq {m i : ℕ} (hi : i < m) {f : Leg → Bool} {l : ℕ → Leg}
    {x : Leg} (h : f x = f (l i)) : tally m (f ∘ update l i x) = tally m (f ∘ l) := by
  have := tally_comp_update hi f l x
  rw [h] at this
  omega

/-- `count_` counts the leaves whose `fetch_add` happened. The one increment that observed
`needed_count_` is held by its agent until it stores the flag or resumes the caller, so the
stores and resumes together are one once the threshold is met and none before. -/
structure Counting (S : Setup) (s : Join) : Prop where
  count_eq : s.count = tally S.size (Leg.counts ∘ s.leg)
  token : s.stores + s.resumes + (if s.caller.holds then 1 else 0) +
      tally S.size (Leg.holds S.needed ∘ s.leg) = if S.needed ≤ s.count then 1 else 0
  skipped : ∀ j < S.size, s.leg j = .skipped → S.needed ≤ s.count
  goal : s.goal = true → 1 ≤ s.stores
  wake : s.wake = true → 1 ≤ s.resumes
  past : s.caller = .running ∨ s.caller = .returned → 1 ≤ s.stores + s.resumes

theorem counting_init (hn : 1 ≤ S.needed) : Counting S S.init := by
  have h0 : ∀ f : Leg → Bool, f .unvisited = false → tally S.size (f ∘ S.init.leg) = 0 :=
    fun f hf => tally_eq_zero fun _ _ => hf
  refine ⟨(h0 _ rfl).symm, ?_, by simp [Setup.init], by simp [Setup.init], by simp [Setup.init],
    by simp [Setup.init]⟩
  have hn' : ¬ S.needed ≤ 0 := by omega
  rw [h0 _ rfl]
  simp [Setup.init, Caller.holds, hn']

/-- Writing leaf `i` keeps the skipped-leaf clause when the count does not drop and the new
leg is a skip only past the threshold. -/
theorem skipped_update {n m c c' i : ℕ} {l : ℕ → Leg} {x : Leg}
    (h : ∀ j < m, l j = .skipped → n ≤ c) (hc : c ≤ c') (hx : x = .skipped → n ≤ c') :
    ∀ j < m, update l i x j = .skipped → n ≤ c' :=
  (forall_update_iff l fun j y => j < m → y = .skipped → n ≤ c').2
    ⟨fun _ => hx, fun j _ hj hsk => (h j hj hsk).trans hc⟩

theorem Counting.moves (hs : Shape S s) (h : Counting S s) (hm : Moves S s e s') :
    Counting S s' := by
  have hc := h.count_eq
  have ht := h.token
  have hin := hs.inRange
  cases hm with
  | load i hi _ _ _ | pending i hi _ _ _ | available i hi _ _ | push i hi _ =>
    exact ⟨hc, by simpa [hi, Caller.holds] using ht, h.skipped, h.goal, h.wake, by simp⟩
  | skip i hi hlt hle _ =>
    have hu := hs.unvisited_at hlt (by simp [hi, Caller.pos])
    have h1 := tally_comp_update_of_eq hlt (f := Leg.counts) (l := s.leg) (x := .skipped)
      (by rw [hu]; rfl)
    have h2 := tally_comp_update_of_eq hlt (f := Leg.holds S.needed) (l := s.leg)
      (x := .skipped) (by rw [hu]; rfl)
    exact ⟨hc.trans h1.symm, by simpa [hi, Caller.holds, h2] using ht,
      skipped_update h.skipped le_rfl fun _ => hle, h.goal, h.wake, by simp⟩
  | readFlag i hi _ _ =>
    refine ⟨hc, ?_, h.skipped, h.goal, h.wake, fun hp => ?_⟩
    · simp only [hi, Caller.holds] at ht ⊢
      split <;> simpa using ht
    · split at hp
      · exact Nat.le_add_right_of_le (h.goal ‹_›)
      · simp at hp
  | register i hi _ =>
    simp only [hi, Caller.inRange] at hin
    have hu := hs.unvisited_at hin (by simp [hi, Caller.pos])
    have h1 := tally_comp_update_of_eq hin (f := Leg.counts) (l := s.leg)
      (x := if s.ready i then .fired S.ctx else .stored) (by rw [hu]; split <;> rfl)
    have h2 := tally_comp_update_of_eq hin (f := Leg.holds S.needed) (l := s.leg)
      (x := if s.ready i then .fired S.ctx else .stored) (by rw [hu]; split <;> rfl)
    exact ⟨hc.trans h1.symm, by simpa [hi, Caller.holds, h2] using ht,
      skipped_update h.skipped le_rfl (by split <;> simp), h.goal, h.wake, by simp⟩
  | increment i hi _ =>
    simp only [hi, Caller.inRange] at hin
    have hu := hs.unvisited_at hin (by simp [hi, Caller.pos])
    have h1 := tally_comp_update hin Leg.counts s.leg .direct
    have h2 := tally_comp_update_of_eq hin (f := Leg.holds S.needed) (l := s.leg)
      (x := .direct) (by rw [hu]; rfl)
    simp only [hu, Leg.counts, if_true, Bool.false_eq_true, if_false] at h1
    refine ⟨by simp only; omega, ?_, skipped_update h.skipped (Nat.le_succ _) (by simp),
      h.goal, h.wake, by split <;> simp⟩
    simp only [hi, Caller.holds] at ht ⊢
    split <;> simp only [Caller.holds] <;> split_ifs at ht ⊢ <;> omega
  | signal i hi _ =>
    refine ⟨hc, ?_, h.skipped, fun _ => by simp, h.wake,
      fun _ => Nat.le_add_right_of_le (Nat.le_add_left _ _)⟩
    simp [hi, Caller.holds] at ht ⊢
    omega
  | wakeUp hi hw _ =>
    exact ⟨hc, by simpa [hi, Caller.holds] using ht, h.skipped, h.goal, by simp,
      fun _ => (h.wake hw).trans (Nat.le_add_left _ _)⟩
  | move hi _ =>
    exact ⟨hc, by simpa [hi, Caller.holds] using ht, h.skipped, h.goal, h.wake,
      fun _ => h.past (.inl hi)⟩
  | fetchAdd i a hl =>
    have hi := hs.lt_of_visited (j := i) (by simp [hl])
    set x : Leg := if s.count + 1 ≤ S.needed then .counted a (s.count + 1) else .late with hx
    have e1 : x.counts = true := by rw [hx]; split <;> rfl
    have e2 : x.holds S.needed = decide (s.count + 1 = S.needed) := by
      rw [hx]; split <;> simp only [Leg.holds, false_eq_decide_iff]
      omega
    have h1 := tally_comp_update hi Leg.counts s.leg x
    have h2 := tally_comp_update hi (Leg.holds S.needed) s.leg x
    rw [hl, e1] at h1
    rw [hl, e2] at h2
    simp only [Leg.counts, Leg.holds, Bool.false_eq_true, if_false, if_true, Nat.add_zero,
      decide_eq_true_eq] at h1 h2
    refine ⟨by simp only; omega, ?_, skipped_update h.skipped (Nat.le_succ _) ?_, h.goal,
      h.wake, h.past⟩
    · simp only at ht ⊢
      split_ifs at ht h2 ⊢ <;> omega
    · rw [hx]
      split <;> simp
  | append i a c hl =>
    have hi := hs.lt_of_visited (j := i) (by simp [hl])
    have h1 := tally_comp_update_of_eq hi (f := Leg.counts) (l := s.leg)
      (x := if c = S.needed then .reached a else .done) (by rw [hl]; split <;> rfl)
    have h2 := tally_comp_update_of_eq hi (f := Leg.holds S.needed) (l := s.leg)
      (x := if c = S.needed then .reached a else .done)
      (by rw [hl]; split <;> simp_all [Leg.holds])
    exact ⟨hc.trans h1.symm, by simpa [h2] using ht,
      skipped_update h.skipped le_rfl (by split <;> simp), h.goal, h.wake, h.past⟩
  | resume i a hl _ =>
    have hi := hs.lt_of_visited (j := i) (by simp [hl])
    have h1 := tally_comp_update_of_eq hi (f := Leg.counts) (l := s.leg) (x := .done)
      (by rw [hl]; rfl)
    have h2 := tally_comp_update hi (Leg.holds S.needed) s.leg .done
    simp only [hl, Leg.holds, if_true, Bool.false_eq_true, if_false] at h2
    exact ⟨hc.trans h1.symm, by simp only at ht ⊢; omega,
      skipped_update h.skipped le_rfl (by simp), h.goal, fun _ => Nat.le_add_left _ _,
      fun _ => (Nat.le_add_left 1 _).trans (Nat.le_add_left _ _)⟩
  | store i hl =>
    have hi := hs.lt_of_visited (j := i) (by simp [hl])
    have h1 := tally_comp_update_of_eq hi (f := Leg.counts) (l := s.leg) (x := .done)
      (by rw [hl]; rfl)
    have h2 := tally_comp_update hi (Leg.holds S.needed) s.leg .done
    simp only [hl, Leg.holds, if_true, Bool.false_eq_true, if_false] at h2
    exact ⟨hc.trans h1.symm, by simp only at ht ⊢; omega,
      skipped_update h.skipped le_rfl (by simp), fun _ => Nat.le_add_left _ _, h.wake,
      fun _ => Nat.le_add_right_of_le (Nat.le_add_left _ _)⟩
  | complete i a hi _ _ _ =>
    by_cases hst : s.leg i = .stored
    · have h1 := tally_comp_update_of_eq hi (f := Leg.counts) (l := s.leg) (x := .fired a)
        (by rw [hst]; rfl)
      have h2 := tally_comp_update_of_eq hi (f := Leg.holds S.needed) (l := s.leg)
        (x := .fired a) (by rw [hst]; rfl)
      rw [if_pos hst]
      exact ⟨hc.trans h1.symm, by simpa [h2] using ht,
        skipped_update h.skipped le_rfl (by simp), h.goal, h.wake, h.past⟩
    · rw [if_neg hst]
      exact ⟨hc, ht, h.skipped, h.goal, h.wake, h.past⟩

theorem Reachable.shape (h : Reachable S s) : Shape S s := by
  induction h with
  | init => exact shape_init
  | step _ _ hs ih => exact ih.moves (step_moves hs)

theorem Reachable.counting (hn : 1 ≤ S.needed) (h : Reachable S s) : Counting S s := by
  induction h with
  | init => exact counting_init hn
  | step _ hr hs ih => exact ih.moves hr.shape (step_moves hs)

end PikaLocal.WhenSome
