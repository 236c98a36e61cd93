import Mathlib.Data.List.Basic
import Mathlib.Algebra.Group.Nat.Basic

/-! Error codes and exception objects as `PIKA_THROW_EXCEPTION` and `PIKA_GET_EXCEPTION`
build them, and the ways a modelled call can end. -/
namespace PikaLocal

/-- The `pika::error` codes raised by the modelled functions. -/
inductive Error where
  | invalidStatus
  | badParameter
  deriving DecidableEq, Repr

/-- An exception object: its error code, the name of the raising function and its message. -/
structure Exception where
  code : Error
  function : String
  message : String
  deriving DecidableEq, Repr

/-- How a member function call ends. `undefined` is an access outside an allocation. -/
inductive Outcome (β : Type) where
  | returned (r : β)
  | threw (e : Exception)
  | undefined
  deriving DecidableEq, Repr

/-- The same ending with the returned value passed through `f`. -/
def Outcome.map {β γ : Type} (f : β → γ) : Outcome β → Outcome γ
  | .returned r => .returned (f r)
  | .threw e => .threw e
  | .undefined => .undefined

@[simp] theorem Outcome.map_eq_undefined {β γ : Type} (f : β → γ) (o : Outcome β) :
    o.map f = .undefined ↔ o = .undefined := by
  cases o <;> simp [Outcome.map]

end PikaLocal
