import PikaLocal.Errors
import Mathlib.Data.List.Nodup

/-! The argument side of `when_some` in `when_some.hpp`: the overloads' threshold checks and
the walk of `set_when_some_callback_impl`, which passes each leaf future an index `idx_`. A
range inside a tuple is walked by `std::for_each` on a copy of the functor, so the tuple's
`idx_` does not move past it. -/
namespace PikaLocal.WhenSome

/-- One argument of the variadic `when_some`: a future, or a range of futures. -/
inductive Arg (F : Type) where
  | future (f : F)
  | range (fs : List F)
  deriving DecidableEq, Repr

variable {F : Type}

/-- The leaf futures of an argument list, left to right. -/
def leaves : List (Arg F) → List F
  | [] => []
  | .future f :: as => f :: leaves as
  | .range fs :: as => fs ++ leaves as

/-- `operator()(Future&)` applied to `fs` in turn on one functor: each future takes `idx_`,
then `idx_` is incremented. Returns the indices passed and the final `idx_`. -/
def visitFutures (idx : ℕ) : List F → List ℕ × ℕ
  | [] => ([], idx)
  | _ :: fs => (idx :: (visitFutures (idx + 1) fs).1, (visitFutures (idx + 1) fs).2)

/-- `operator()` on one tuple element. A range goes through `apply`, whose `std::for_each`
takes the functor by value: the copy's `idx_` advances, the caller's does not. -/
def visitElement (idx : ℕ) : Arg F → List ℕ × ℕ
  | .future f => visitFutures idx [f]
  | .range fs => ((visitFutures idx fs).1, idx)

/-- `apply(tuple)`: every element in order on the same functor. -/
def visitTuple (idx : ℕ) : List (Arg F) → List ℕ × ℕ
  | [] => ([], idx)
  | a :: as =>
    ((visitElement idx a).1 ++ (visitTuple (visitElement idx a).2 as).1,
      (visitTuple (visitElement idx a).2 as).2)

/-- The indices `set_on_completed_callback` passes for the leaves of a tuple, from `idx_ = 0`. -/
def callbackTags (args : List (Arg F)) : List ℕ := (visitTuple 0 args).1

/-- For a range the walk is `std::for_each` over it, from `idx_ = 0`. -/
def rangeTags (fs : List F) : List ℕ := (visitFutures 0 fs).1

theorem visitFutures_fst (idx : ℕ) (fs : List F) :
    (visitFutures idx fs).1 = List.range' idx fs.length := by
  induction fs generalizing idx with
  | nil => rfl
  | cons f fs ih => simp [visitFutures, ih, List.range'_succ]

/-- The leaves of a range get their positions. -/
theorem rangeTags_eq (fs : List F) : rangeTags fs = List.range fs.length := by
  simp [rangeTags, visitFutures_fst, List.range_eq_range']

/-- The walk passes one index per leaf. -/
theorem length_visitTuple (idx : ℕ) (args : List (Arg F)) :
    (visitTuple idx args).1.length = (leaves args).length := by
  induction args generalizing idx with
  | nil => rfl
  | cons a as ih =>
    cases a <;> simp [visitTuple, visitElement, visitFutures_fst, leaves, ih]

/-- For `(f0, vector{f1, f2}, f3)` the range's leaves take 1 and 2 on the copy, and `f3`
takes the tuple's `idx_ = 1` again. -/
theorem callbackTags_repeat :
    callbackTags [.future (), .range [(), ()], .future ()] = [0, 1, 2, 1] ∧
      ¬ (callbackTags [.future (), .range [(), ()], .future ()]).Nodup := by
  decide

/-- No leaf follows a nonempty range: after one come only empty ranges. -/
def rangesLast : List (Arg F) → Bool
  | [] => true
  | .future _ :: as => rangesLast as
  | .range fs :: as => (fs.isEmpty || (leaves as).isEmpty) && rangesLast as

theorem rangesLast_of_leaves_nil : ∀ {args : List (Arg F)}, leaves args = [] →
    rangesLast args = true
  | [], _ => rfl
  | .future _ :: _, h => by simp [leaves] at h
  | .range fs :: as, h => by
    simp only [leaves, List.append_eq_nil] at h
    simp [rangesLast, h.1, rangesLast_of_leaves_nil h.2]

theorem visitTuple_eq_nil {idx : ℕ} {args : List (Arg F)} (h : leaves args = []) :
    (visitTuple idx args).1 = [] :=
  List.eq_nil_of_length_eq_zero (by rw [length_visitTuple, h, List.length_nil])

/-- The first leaf of a tuple takes the walk's starting `idx_`. -/
theorem mem_visitTuple (idx : ℕ) {args : List (Arg F)} (h : leaves args ≠ []) :
    idx ∈ (visitTuple idx args).1 := by
  induction args with
  | nil => exact absurd rfl h
  | cons a as ih =>
    cases a with
    | future f => simp [visitTuple, visitElement, visitFutures]
    | range fs =>
      simp only [visitTuple, visitElement, visitFutures_fst, List.mem_append, List.mem_range'_1]
      cases fs with
      | nil => exact .inr (ih (by simpa [leaves] using h))
      | cons f fs => exact .inl ⟨le_rfl, by simp⟩

/-- With no leaf after a nonempty range, the walk passes each leaf its position. -/
theorem visitTuple_of_rangesLast (idx : ℕ) {args : List (Arg F)} (h : rangesLast args = true) :
    (visitTuple idx args).1 = List.range' idx (leaves args).length := by
  induction args generalizing idx with
  | nil => rfl
  | cons a as ih =>
    cases a with
    | future f =>
      simp only [rangesLast] at h
      simp [visitTuple, visitElement, visitFutures, leaves, List.range'_succ, ih _ h]
    | range fs =>
      simp only [rangesLast, Bool.and_eq_true, Bool.or_eq_true, List.isEmpty_iff] at h
      simp only [visitTuple, visitElement, visitFutures_fst, leaves, List.length_append]
      rcases h with ⟨rfl | hl, h⟩
      · simpa using ih idx h
      · rw [visitTuple_eq_nil hl, hl, List.append_nil, List.length_nil, Nat.add_zero]

/-- A leaf after a nonempty range takes an index one of the range's leaves took. -/
theorem not_nodup_of_rangesLast (idx : ℕ) {args : List (Arg F)} (h : rangesLast args = false) :
    ¬ (visitTuple idx args).1.Nodup := by
  induction args generalizing idx with
  | nil => simp [rangesLast] at h
  | cons a as ih =>
    cases a with
    | future f =>
      simp only [rangesLast] at h
      exact fun hn => ih (idx + 1) h
        (by simpa [visitTuple, visitElement, visitFutures] using hn.of_cons)
    | range fs =>
      simp only [visitTuple, visitElement]
      simp only [rangesLast, Bool.and_eq_false_iff, Bool.or_eq_false_iff, List.isEmpty_eq_false]
        at h
      rcases h with ⟨hfs, hl⟩ | h
      · intro hn
        refine List.disjoint_left.mp (List.nodup_append.mp hn).2.2 ?_ (mem_visitTuple idx hl)
        simpa [visitFutures_fst, List.mem_range'_1] using List.length_pos.mpr hfs
      · exact fun hn => ih idx h hn.of_append_right

/-- The tags are the leaves' positions, and pairwise distinct, exactly when no leaf follows a
nonempty range. -/
theorem callbackTags_eq_positions_iff (args : List (Arg F)) :
    (callbackTags args = List.range (leaves args).length ↔ rangesLast args = true) ∧
      ((callbackTags args).Nodup ↔ rangesLast args = true) := by
  have hpos : rangesLast args = true → (visitTuple 0 args).1 = List.range' 0 (leaves args).length :=
    visitTuple_of_rangesLast 0
  have hdup : rangesLast args = false → ¬ (visitTuple 0 args).1.Nodup :=
    not_nodup_of_rangesLast 0
  simp only [callbackTags, List.range_eq_range'] at hpos ⊢
  refine ⟨⟨fun he => ?_, hpos⟩, ⟨fun hn => ?_, fun h => hpos h ▸ List.nodup_range' 0 _⟩⟩
  · by_contra h
    exact hdup (by simpa using h) (he ▸ List.nodup_range' 0 _)
  · by_contra h
    exact hdup (by simpa using h) hn

/-- The bad-parameter exception of every `when_some` overload. -/
def outOfBounds : Exception :=
  ⟨.badParameter, "pika::when_some", "number of results to wait for is out of bounds"⟩

/-- What a `when_some` overload hands back before anything is waited for. -/
inductive Launch where
  /-- `make_ready_future(when_some_result<result_type>())`. -/
  | ready
  /-- `make_exceptional_future` with the exception. -/
  | failed (e : Exception)
  /-- A `futures_factory` that runs `when_some::operator()` with this threshold. -/
  | join (n : ℕ)
  deriving DecidableEq, Repr

/-- `when_some(n, Range&&)`, also reached from the iterator overloads. -/
def whenSomeRange (n : ℕ) (fs : List F) : Launch :=
  if n = 0 then .ready else if n > fs.length then .failed outOfBounds else .join n

/-- `when_some(n)` without arguments. -/
def whenSomeEmpty (n : ℕ) : Launch := if n = 0 then .ready else .failed outOfBounds

/-- `when_some(n, T&& t, Ts&&... ts)`: the bound is the argument count `1 + sizeof...(Ts)`. -/
def whenSomeVariadic (n : ℕ) (_t : Arg F) (ts : List (Arg F)) : Launch :=
  if n = 0 then .ready else if n > 1 + ts.length then .failed outOfBounds else .join n

/-- Overload resolution: a lone range takes the range overload, as the variadic overload's
`enable_if` excludes it. -/
def whenSome (n : ℕ) : List (Arg F) → Launch
  | [] => whenSomeEmpty n
  | [.range fs] => whenSomeRange n fs
  | t :: ts => whenSomeVariadic n t ts

end PikaLocal.WhenSome
