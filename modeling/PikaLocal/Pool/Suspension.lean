import PikaLocal.Errors

/-! The suspension helpers of `thread_pool_suspension_helpers.cpp`. Each makes its checks and
then hands the direct suspend or resume of a processing unit or of a pool to a new pika task
or a new OS thread. The helpers returning a future refuse to run outside pika; those taking a
callback report a failed check through `ec`. -/
namespace PikaLocal.Pool

/-- The scheduler modes the helpers test: `policies::enable_elasticity` and
`policies::enable_stealing`. -/
structure Modes where
  elasticity : Bool
  stealing : Bool
  deriving DecidableEq, Repr

/-- The thread a helper is called on: outside pika (`threads::get_self_ptr()` is null, and
there is no current pool), a pika thread of another pool, or one of the pool itself
(`pika::this_thread::get_pool() == &pool`). -/
inductive Caller where
  | outside
  | otherPool
  | samePool
  deriving DecidableEq, Repr

def Caller.inPika : Caller → Bool
  | .outside => false
  | _ => true

def Caller.onPool : Caller → Bool
  | .samePool => true
  | _ => false

/-- The `*_direct` member function of `thread_pool_base` a helper hands on. -/
inductive Direct where
  | resumeUnit (virtCore : ℕ)
  | suspendUnit (virtCore : ℕ)
  | resumePool
  | suspendPool
  deriving DecidableEq, Repr

/-- What a helper returning `future<void>` does: `PIKA_THROW_EXCEPTION`, return
`make_exceptional_future` of `PIKA_GET_EXCEPTION`, or `pika::async` of the direct call. -/
inductive Awaited where
  | threw (e : Exception)
  | failed (e : Exception)
  | async (d : Direct)
  deriving DecidableEq, Repr

/-- `error_code& ec`: the `throws` sentinel, or an error code for the callee to fill in. -/
inductive ErrorCode where
  | throws
  | code
  deriving DecidableEq, Repr

/-- What a helper taking a callback does: throw, store the error in `ec` and return, or run the
direct call and then the callback on a new pika task (`pika::apply`) or on a new OS thread
(`std::thread(...).detach()`). -/
inductive Scheduled where
  | threw (e : Exception)
  | reported (e : Exception)
  | applied (d : Direct)
  | detached (d : Direct)
  deriving DecidableEq, Repr

def throwsIf (ec : ErrorCode) (e : Exception) : Scheduled :=
  match ec with
  | .throws => .threw e
  | .code => .reported e

/-- The exception of the first check that fails; a check is its failing condition and the
exception it raises. -/
def firstFailed (checks : List (Bool × Exception)) : Option Exception :=
  (checks.find? (·.1)).map (·.2)

/-- The helpers returning a future: outside pika they throw `outside`, a failed check gives an
exceptional future, and otherwise a new pika task runs the direct call. -/
def awaitable (outside : Exception) (checks : List (Bool × Exception)) (d : Direct)
    (c : Caller) : Awaited :=
  if c.inPika then
    match firstFailed checks with
    | some e => .failed e
    | none => .async d
  else .threw outside

/-- The helpers taking a callback: a failed check goes through `PIKA_THROWS_IF`, and otherwise
the direct call runs on a new pika task, or on a new OS thread outside pika. -/
def withCallback (ec : ErrorCode) (checks : List (Bool × Exception)) (d : Direct)
    (c : Caller) : Scheduled :=
  match firstFailed checks with
  | some e => throwsIf ec e
  | none => if c.inPika then .applied d else .detached d

def notElastic (function : String) : Exception :=
  ⟨.invalidStatus, function, "this thread pool does not support suspending " ++
    "processing units"⟩

def notFromItself (function : String) : Exception :=
  ⟨.invalidStatus, function, "this thread pool does not support suspending " ++
    "processing units from itself (no thread stealing)"⟩

def poolFromItself (function : String) : Exception :=
  ⟨.badParameter, function, "cannot suspend a pool from itself"⟩

def resumeProcessingUnit (m : Modes) (virtCore : ℕ) (c : Caller) : Awaited :=
  awaitable ⟨.invalidStatus, "resume_processing_unit",
      "cannot call resume_processing_unit from outside pika, use" ++
        "resume_processing_unit_cb instead"⟩
    [(!m.elasticity, notElastic "resume_processing_unit")] (.resumeUnit virtCore) c

def resumeProcessingUnitCb (m : Modes) (ec : ErrorCode) (virtCore : ℕ) (c : Caller) :
    Scheduled :=
  withCallback ec [(!m.elasticity, notElastic "resume_processing_unit_cb")]
    (.resumeUnit virtCore) c

def suspendProcessingUnit (m : Modes) (virtCore : ℕ) (c : Caller) : Awaited :=
  awaitable ⟨.invalidStatus, "suspend_processing_unit",
      "cannot call suspend_processing_unit from outside pika, use" ++
        "suspend_processing_unit_cb instead"⟩
    [(!m.elasticity, notElastic "suspend_processing_unit"),
      (!m.stealing && c.onPool, notFromItself "suspend_processing_unit")]
    (.suspendUnit virtCore) c

/-- `suspend_processing_unit_cb` makes its stealing check only on a pika thread, and raises it
with `PIKA_THROW_EXCEPTION` whatever `ec` is. -/
def suspendProcessingUnitCb (m : Modes) (ec : ErrorCode) (virtCore : ℕ) (c : Caller) :
    Scheduled :=
  if !m.elasticity then throwsIf ec (notElastic "suspend_processing_unit_cb")
  else if c.inPika then
    if !m.stealing && c.onPool then .threw (notFromItself ("suspend_processing_unit_" ++ "cb"))
    else .applied (.suspendUnit virtCore)
  else .detached (.suspendUnit virtCore)

def resumePool (c : Caller) : Awaited :=
  awaitable ⟨.invalidStatus, "resume_pool",
      "cannot call resume_pool from outside pika, use resume_pool_cb " ++
        "or the member function resume_direct instead"⟩
    [] .resumePool c

/-- `resume_pool_cb` leaves its `ec` unused. -/
def resumePoolCb (c : Caller) : Scheduled := withCallback .throws [] .resumePool c

def suspendPool (c : Caller) : Awaited :=
  awaitable ⟨.invalidStatus, "suspend_pool",
      "cannot call suspend_pool from outside pika, use " ++
        "suspend_pool_cb or the member function suspend_direct " ++ "instead"⟩
    [(c.inPika && c.onPool, poolFromItself "suspend_pool")] .suspendPool c

def suspendPoolCb (ec : ErrorCode) (c : Caller) : Scheduled :=
  withCallback ec [(c.inPika && c.onPool, poolFromItself "suspend_pool_cb")] .suspendPool c

def Awaited.issued : Awaited → Option Direct
  | .async d => some d
  | _ => none

def Scheduled.issued : Scheduled → Option Direct
  | .applied d | .detached d => some d
  | _ => none

theorem firstFailed_eq_none {checks : List (Bool × Exception)} :
    firstFailed checks = none ↔ ∀ x ∈ checks, x.1 = false := by
  simp [firstFailed, List.find?_eq_none]

theorem awaitable_issued (o : Exception) (checks : List (Bool × Exception)) (d : Direct)
    (c : Caller) : (awaitable o checks d c).issued =
      if c.inPika ∧ ∀ x ∈ checks, x.1 = false then some d else none := by
  unfold awaitable
  cases c.inPika
  · rfl
  · by_cases h : ∀ x ∈ checks, x.1 = false
    · rw [firstFailed_eq_none.mpr h,
        if_pos (show true = true ∧ ∀ x ∈ checks, x.1 = false from ⟨rfl, h⟩)]
      rfl
    · obtain ⟨e, he⟩ := Option.ne_none_iff_exists'.mp (mt firstFailed_eq_none.mp h)
      rw [he, if_neg (show ¬(true = true ∧ ∀ x ∈ checks, x.1 = false) from fun h' => h h'.2)]
      rfl

theorem withCallback_issued (ec : ErrorCode) (checks : List (Bool × Exception)) (d : Direct)
    (c : Caller) : (withCallback ec checks d c).issued =
      if ∀ x ∈ checks, x.1 = false then some d else none := by
  unfold withCallback
  by_cases h : ∀ x ∈ checks, x.1 = false
  · rw [firstFailed_eq_none.mpr h, if_pos h]
    cases c.inPika <;> rfl
  · obtain ⟨e, he⟩ := Option.ne_none_iff_exists'.mp (mt firstFailed_eq_none.mp h)
    rw [he, if_neg h]
    cases ec <;> rfl

/-- With an error code to fill in, the family reports a failed check through it. -/
theorem withCallback_code_ne_threw (checks : List (Bool × Exception)) (d : Direct) (c : Caller)
    (e : Exception) : withCallback .code checks d c ≠ .threw e := by
  unfold withCallback
  cases firstFailed checks <;> cases c.inPika <;> simp [throwsIf]

/-- The same check raising the exception of the `_cb` function. -/
def callbackCheck (x : Bool × Exception) : Bool × Exception :=
  (x.1, { x.2 with function := x.2.function ++ "_cb" })

/-- What the callback form of a helper does where the form returning a future gives `a`: the
same exception, now naming the `_cb` function, raised; or the same direct call on a new pika
task. -/
def Awaited.asCallback : Awaited → Scheduled
  | .threw e | .failed e => .threw { e with function := e.function ++ "_cb" }
  | .async d => .applied d

/-- On a pika thread, with `ec = throws`, the callback form of the family does what the form
returning a future does. -/
theorem withCallback_throws (o : Exception) (checks : List (Bool × Exception)) (d : Direct)
    {c : Caller} (hc : c.inPika = true) :
    withCallback .throws (checks.map callbackCheck) d c = (awaitable o checks d c).asCallback := by
  have hf : firstFailed (checks.map callbackCheck) = (firstFailed checks).map
      fun e => { e with function := e.function ++ "_cb" } := by
    simp only [firstFailed, List.find?_map, Option.map_map]
    rfl
  unfold withCallback awaitable
  rw [hf, hc]
  cases firstFailed checks <;> rfl

def awaitedHelper (m : Modes) (c : Caller) : Direct → Awaited
  | .resumeUnit v => resumeProcessingUnit m v c
  | .suspendUnit v => suspendProcessingUnit m v c
  | .resumePool => resumePool c
  | .suspendPool => suspendPool c

def callbackHelper (m : Modes) (ec : ErrorCode) (c : Caller) : Direct → Scheduled
  | .resumeUnit v => resumeProcessingUnitCb m ec v c
  | .suspendUnit v => suspendProcessingUnitCb m ec v c
  | .resumePool => resumePoolCb c
  | .suspendPool => suspendPoolCb ec c

/-- What the direct calls need: the units of a pool are suspended or resumed only with
elasticity, a pool without stealing does not suspend its units from its own threads, and a
pool is not suspended from its own threads. -/
def Allowed (m : Modes) (c : Caller) : Direct → Bool
  | .resumeUnit _ => m.elasticity
  | .suspendUnit _ => m.elasticity && (m.stealing || !c.onPool)
  | .resumePool => true
  | .suspendPool => !c.onPool

theorem suspendProcessingUnitCb_issued (m : Modes) (ec : ErrorCode) (v : ℕ) (c : Caller) :
    (suspendProcessingUnitCb m ec v c).issued =
      if Allowed m c (.suspendUnit v) then some (.suspendUnit v) else none := by
  rcases m with ⟨_ | _, _ | _⟩ <;> cases ec <;> cases c <;> rfl

/-- Every helper hands on its direct call exactly when the call is allowed; a helper returning
a future also needs a pika thread. -/
theorem helpers_issue_allowed (m : Modes) (ec : ErrorCode) (c : Caller) (d : Direct) :
    (awaitedHelper m c d).issued = (if c.inPika && Allowed m c d then some d else none) ∧
      (callbackHelper m ec c d).issued = if Allowed m c d then some d else none := by
  cases d with
  | suspendUnit v =>
    refine ⟨?_, suspendProcessingUnitCb_issued m ec v c⟩
    simp only [awaitedHelper, suspendProcessingUnit, awaitable_issued, Allowed]
    cases c <;> simp [Caller.inPika, Caller.onPool]
  | _ =>
    simp only [awaitedHelper, callbackHelper, resumeProcessingUnit, resumeProcessingUnitCb,
      resumePool, resumePoolCb, suspendPool, suspendPoolCb, awaitable_issued,
      withCallback_issued, Allowed]
    cases c <;> simp [Caller.inPika, Caller.onPool]

/-- With an error code to fill in, the helpers taking a callback report a failed check through
it and do not throw, except `suspend_processing_unit_cb`, whose stealing check throws on a pika
thread of the pool itself. -/
theorem callbacks_report_through_ec (m : Modes) (c : Caller) (d : Direct) (e : Exception) :
    callbackHelper m .code c d = .threw e ↔ (∃ v, d = .suspendUnit v) ∧ m.elasticity = true ∧
      m.stealing = false ∧ c = .samePool ∧ e = notFromItself "suspend_processing_unit_cb" := by
  cases d with
  | suspendUnit v =>
    rcases m with ⟨_ | _, _ | _⟩ <;> cases c <;>
      simp [callbackHelper, suspendProcessingUnitCb, throwsIf, Caller.inPika, Caller.onPool,
        eq_comm]
  | resumeUnit v => simpa using withCallback_code_ne_threw _ _ c e
  | resumePool => cases c <;> simp [callbackHelper, resumePoolCb, withCallback, firstFailed,
      Caller.inPika]
  | suspendPool => simpa using withCallback_code_ne_threw _ _ c e

/-- On a pika thread, with `ec = throws`, each helper taking a callback does what the helper
returning a future does: it raises the same exception, naming the `_cb` function, or hands the
same direct call to a new pika task. -/
theorem callbacks_agree_on_pika_threads (m : Modes) {c : Caller} (hc : c.inPika = true)
    (d : Direct) : callbackHelper m .throws c d = (awaitedHelper m c d).asCallback := by
  cases d with
  | resumeUnit v =>
    exact withCallback_throws _ [(!m.elasticity, notElastic "resume_processing_unit")] _ hc
  | suspendUnit v => rcases m with ⟨_ | _, _ | _⟩ <;> cases c <;> first | rfl | cases hc
  | resumePool => exact withCallback_throws _ [] _ hc
  | suspendPool =>
    exact withCallback_throws _ [(c.inPika && c.onPool, poolFromItself "suspend_pool")] _ hc

end PikaLocal.Pool
