import PikaLocal.WhenSome.Walk
import Mathlib.Logic.Function.Basic

/-! `when_some::operator()` and `on_future_ready` as a transition system. The caller's agent
walks the leaves with `set_when_some_callback_impl::operator()`, tests
`goal_reached_on_calling_thread_`, suspends and moves `values_` out. `on_future_ready` runs for
a leaf on the agent that completes it, or inline on the caller's agent. A step is one atomic
access to shared data: a load or `fetch_add` of `count_`, a push under `mtx_`, a store of the
flag, a `resume`. `stores` and `resumes` count the flag stores and resumes of a run. -/
namespace PikaLocal.WhenSome

open Function

/-- An execution agent. -/
abbrev Agent := ℕ

/-- One join as `when_some` starts it: `needed_count_`, the number of leaf futures the walk
visits, the index the walk passes for leaf `i`, whether leaf `i` has a shared state and whether
it is ready when the walk starts, and the agent `ctx` running `when_some::operator()`. -/
structure Setup where
  needed : ℕ
  size : ℕ
  tag : ℕ → ℕ
  hasState : ℕ → Bool
  readyAtStart : ℕ → Bool
  ctx : Agent

/-- What has happened to one leaf. The walk skipped it (`count_ >= needed_count_`), or pushed
and counted it itself (`direct`), or left `on_future_ready` with its shared state (`stored`).
The callback then runs on agent `a`: before its `fetch_add` (`fired`), with `new_count = c <=
needed_count_` before its push (`counted`), with `new_count == needed_count_` before its resume
or flag store (`reached`); it returns with `new_count > needed_count_` and no push (`late`) or
after its push (`done`). -/
inductive Leg where
  | unvisited
  | skipped
  | direct
  | stored
  | fired (a : Agent)
  | counted (a : Agent) (c : ℕ)
  | reached (a : Agent)
  | late
  | done
  deriving DecidableEq, Repr

/-- Where the caller's agent is in `when_some::operator()`. The walk is at leaf `i` about to
load `count_` (past the last leaf the flag test is next); tests the shared state of leaf `i`
(`inspect`); registers `on_future_ready` with a leaf not ready (`register`); or, on the ready
path, pushes leaf `i` under `mtx_`, calls `fetch_add`, and stores the flag when it reached
`needed_count_` (`signal`). Then it is suspended, moves `values_` out (`running`), and has
returned. -/
inductive Caller where
  | visit (i : ℕ)
  | inspect (i : ℕ)
  | register (i : ℕ)
  | push (i : ℕ)
  | increment (i : ℕ)
  | signal (i : ℕ)
  | suspended
  | running
  | returned
  deriving DecidableEq, Repr

/-- The state of a join: which shared states are ready, each leaf, `count_`, `values_.indices`,
`goal_reached_on_calling_thread_`, the caller, a `resume` of the caller's agent not yet
consumed by its suspension, what `operator()` returned, and how many flag stores and resumes
the run has made. -/
structure Join where
  ready : ℕ → Bool
  leg : ℕ → Leg
  count : ℕ
  indices : List ℕ
  goal : Bool
  caller : Caller
  wake : Bool
  result : Option (List ℕ)
  stores : ℕ
  resumes : ℕ

/-- Who moves: the caller's agent, the agent running `on_future_ready` for leaf `i`, or an
agent `a` completing leaf `i`'s shared state. -/
inductive Event where
  | caller
  | callback (i : ℕ)
  | complete (i : ℕ) (a : Agent)
  deriving DecidableEq, Repr

def Leg.runsOn (a : Agent) : Leg → Bool
  | .fired b | .counted b _ | .reached b => b == a
  | _ => false

/-- `execute_deferred` of the leaf being inspected may complete futures on the caller's agent. -/
def Caller.deferring : Caller → Bool
  | .inspect _ => true
  | _ => false

/-- The join `when_some(n, fs)` starts for a range: `std::for_each` tags the leaves. -/
def Setup.ofRange {F : Type} (n : ℕ) (fs : List F) (hasState readyAtStart : ℕ → Bool)
    (ctx : Agent) : Setup :=
  ⟨n, fs.length, fun i => (rangeTags fs).getD i 0, hasState, readyAtStart, ctx⟩

def Setup.ofTuple {F : Type} (n : ℕ) (args : List (Arg F)) (hasState readyAtStart : ℕ → Bool)
    (ctx : Agent) : Setup :=
  ⟨n, (leaves args).length, fun i => (callbackTags args).getD i 0, hasState, readyAtStart, ctx⟩

theorem Setup.ofRange_tag {F : Type} {n : ℕ} {fs : List F} {hs ra : ℕ → Bool} {ctx : Agent}
    {i : ℕ} (hi : i < fs.length) : (Setup.ofRange n fs hs ra ctx).tag i = i := by
  simp [Setup.ofRange, rangeTags_eq, hi]

def Setup.init (S : Setup) : Join where
  ready := S.readyAtStart
  leg := fun _ => .unvisited
  count := 0
  indices := []
  goal := false
  caller := .visit 0
  wake := false
  result := none
  stores := 0
  resumes := 0

namespace Join

/-- Some `on_future_ready` runs inline on the caller's agent, which resumes its own code only
after it returns. -/
def busy (S : Setup) (s : Join) : Bool :=
  (List.range S.size).any fun j => (s.leg j).runsOn S.ctx

/-- One step of the caller's own code. -/
def callerStep (S : Setup) (s : Join) : Option Join :=
  match s.caller with
  | .visit i =>
    if i < S.size then
      if s.count < S.needed then some { s with caller := .inspect i }
      else some { s with caller := .visit (i + 1), leg := update s.leg i .skipped }
    else some { s with caller := if s.goal then .running else .suspended }
  | .inspect i =>
    if S.hasState i && !s.ready i then some { s with caller := .register i }
    else some { s with caller := .push i }
  | .register i =>
    some { s with
      caller := .visit (i + 1)
      leg := update s.leg i (if s.ready i then .fired S.ctx else .stored) }
  | .push i => some { s with caller := .increment i, indices := s.indices ++ [S.tag i] }
  | .increment i =>
    some { s with
      count := s.count + 1
      leg := update s.leg i .direct
      caller := if s.count + 1 = S.needed then .signal i else .visit (i + 1) }
  | .signal i => some { s with goal := true, stores := s.stores + 1, caller := .visit (i + 1) }
  | .suspended => if s.wake then some { s with wake := false, caller := .running } else none
  | .running => some { s with result := some s.indices, indices := [], caller := .returned }
  | .returned => none

/-- One step of `on_future_ready(idx, ctx)` for leaf `i`. -/
def onFutureReady (S : Setup) (s : Join) (i : ℕ) : Option Join :=
  match s.leg i with
  | .fired a =>
    some { s with
      count := s.count + 1
      leg := update s.leg i
        (if s.count + 1 ≤ S.needed then .counted a (s.count + 1) else .late) }
  | .counted a c =>
    some { s with
      indices := s.indices ++ [S.tag i]
      leg := update s.leg i (if c = S.needed then .reached a else .done) }
  | .reached a =>
    if S.ctx ≠ a then
      some { s with wake := true, resumes := s.resumes + 1, leg := update s.leg i .done }
    else some { s with goal := true, stores := s.stores + 1, leg := update s.leg i .done }
  | _ => none

/-- Agent `a` makes leaf `i`'s shared state ready and runs a stored `on_future_ready`. The
caller's agent completes futures only inside `execute_deferred`. -/
def complete (S : Setup) (s : Join) (i : ℕ) (a : Agent) : Option Join :=
  if i < S.size ∧ S.hasState i = true ∧ s.ready i = false ∧
      (a ≠ S.ctx ∨ s.caller.deferring = true ∧ s.busy S = false) then
    some { s with
      ready := update s.ready i true
      leg := if s.leg i = .stored then update s.leg i (.fired a) else s.leg }
  else none

def step (S : Setup) (s : Join) : Event → Option Join
  | .caller => if s.busy S then none else s.callerStep S
  | .callback i => s.onFutureReady S i
  | .complete i a => s.complete S i a

def run (S : Setup) (s : Join) : List Event → Option Join
  | [] => some s
  | e :: es => (s.step S e).bind fun s' => s'.run S es

end Join

inductive Reachable (S : Setup) : Join → Prop
  | init : Reachable S S.init
  | step {s s' : Join} (e : Event) : Reachable S s → s.step S e = some s' → Reachable S s'

theorem Reachable.run {S : Setup} {s s' : Join} (h : Reachable S s) {es : List Event}
    (hr : s.run S es = some s') : Reachable S s' := by
  induction es generalizing s with
  | nil => exact Option.some.inj hr ▸ h
  | cons e es ih =>
    obtain ⟨t, ht, hr⟩ := Option.bind_eq_some.mp hr
    exact ih (.step e h ht) hr

end PikaLocal.WhenSome
