import PikaLocal.Channel.Invariant

/-! A program's channel objects over a sequence of calls. Every object stays valid and no call
touches a slot outside its buffer, as long as no channel is built asking for `2^64 - 1` slots
and no object is move-assigned from another one. -/
namespace PikaLocal.Channel
open BoundedChannel

variable {α : Type}

/-- A call on the program's channel objects, each named by its position among them. -/
inductive Op (α : Type) where
  /-- `bounded_channel<T> c(size)`. -/
  | construct (size : SizeT)
  | set (o : ℕ) (t : α)
  | get (o : ℕ) (val : Option α)
  | close (o : ℕ)
  /-- `bounded_channel<T> c(std::move(o))`: the new object comes last. -/
  | moveConstruct (o : ℕ)
  /-- `dst = std::move(src)`. -/
  | moveAssign (dst src : ℕ)
  | destroy (o : ℕ)

/-- A member function run on object `o`, if there is one. -/
def onObject {β : Type} (os : List (BoundedChannel α)) (o : ℕ)
    (f : BoundedChannel α → Outcome β × BoundedChannel α) :
    Outcome Unit × List (BoundedChannel α) :=
  match os[o]? with
  | some ch => ((f ch).1.map fun _ => (), os.set o (f ch).2)
  | none => (.returned (), os)

def Op.apply [Inhabited α] (os : List (BoundedChannel α)) :
    Op α → Outcome Unit × List (BoundedChannel α)
  | .construct size => (.returned (), os ++ [boundedChannel size])
  | .set o t => onObject os o (·.set t)
  | .get o val => onObject os o (·.get val)
  | .close o => onObject os o (·.close)
  | .moveConstruct o =>
    match os[o]? with
    | some ch =>
      let moved := BoundedChannel.moveConstruct ch
      (.returned (), os.set o moved.2 ++ [moved.1])
    | none => (.returned (), os)
  | .moveAssign dst src =>
    if dst = src then onObject os dst fun ch => (.returned (), moveAssignSelf ch)
    else
      match os[dst]?, os[src]? with
      | some l, some r =>
        let moved := BoundedChannel.moveAssign l r
        (.returned (), (os.set dst moved.1).set src moved.2)
      | _, _ => (.returned (), os)
  | .destroy o => onObject os o (·.destroy)

/-- Each call in turn: how each ended, and the objects afterwards. -/
def runOps [Inhabited α] (os : List (BoundedChannel α)) :
    List (Op α) → List (Outcome Unit) × List (BoundedChannel α)
  | [] => ([], os)
  | op :: ops => ((op.apply os).1 :: (runOps (op.apply os).2 ops).1, (runOps (op.apply os).2 ops).2)

/-- The calls that keep the invariant: no channel built asking for `2^64 - 1` slots, and no
move assignment from another object. -/
def Op.Safe : Op α → Prop
  | .construct size => size.toNat + 1 < 2 ^ 64
  | .moveAssign dst src => dst = src
  | _ => True

instance (op : Op α) : Decidable op.Safe :=
  match op with
  | .construct size => inferInstanceAs (Decidable (size.toNat + 1 < 2 ^ 64))
  | .moveAssign dst src => inferInstanceAs (Decidable (dst = src))
  | .set .. | .get .. | .close _ | .moveConstruct _ | .destroy _ => isTrue trivial

theorem close_defined (ch : BoundedChannel α) : ch.close.1 ≠ .undefined := by
  unfold BoundedChannel.close
  split <;> simp

theorem destroy_valid (h : Valid ch) : Valid ch.destroy.2 := by
  unfold destroy
  split
  · split
    · exact h
    · exact close_valid h
  · exact h

theorem valid_set {os : List (BoundedChannel α)} (hos : ∀ ch ∈ os, Valid ch) {o : ℕ}
    {x : BoundedChannel α} (hx : Valid x) : ∀ ch ∈ os.set o x, Valid ch :=
  fun _ hch => (List.mem_or_eq_of_mem_set hch).elim (hos _) fun h => h ▸ hx

/-- A member function that keeps the invariant and stays inside the buffer does so on any
object of the program. -/
theorem onObject_valid {β : Type} {os : List (BoundedChannel α)} (hos : ∀ ch ∈ os, Valid ch)
    (o : ℕ) {f : BoundedChannel α → Outcome β × BoundedChannel α}
    (hf : ∀ ch, Valid ch → (f ch).1 ≠ .undefined ∧ Valid (f ch).2) :
    (onObject os o f).1 ≠ .undefined ∧ ∀ ch ∈ (onObject os o f).2, Valid ch := by
  unfold onObject
  split
  · next ch hch =>
    have hv := hos ch (List.getElem?_mem hch)
    exact ⟨by simpa using (hf ch hv).1, valid_set hos (hf ch hv).2⟩
  · exact ⟨by simp, hos⟩

theorem Op.apply_valid [Inhabited α] {os : List (BoundedChannel α)} (hos : ∀ ch ∈ os, Valid ch)
    {op : Op α} (hop : op.Safe) :
    (op.apply os).1 ≠ .undefined ∧ ∀ ch ∈ (op.apply os).2, Valid ch := by
  cases op with
  | construct size =>
    refine ⟨by simp [Op.apply], fun ch hch => ?_⟩
    rcases List.mem_append.mp hch with hch | hch
    · exact hos ch hch
    · rw [List.mem_singleton.mp hch]
      exact boundedChannel_valid hop
  | set o t => exact onObject_valid hos o fun ch h => ⟨set_defined h t, set_valid h t⟩
  | get o val => exact onObject_valid hos o fun ch h => ⟨get_defined h val, get_valid h val⟩
  | close o => exact onObject_valid hos o fun ch h => ⟨close_defined ch, close_valid h⟩
  | moveConstruct o =>
    simp only [Op.apply]
    split
    · next ch hch =>
      have hv := moveConstruct_valid (hos ch (List.getElem?_mem hch))
      refine ⟨by simp, fun c hc => ?_⟩
      rcases List.mem_append.mp hc with hc | hc
      · exact valid_set hos hv.2 c hc
      · exact List.mem_singleton.mp hc ▸ hv.1
    · exact ⟨by simp, hos⟩
  | moveAssign dst src =>
    simp only [Op.Safe] at hop
    simp only [Op.apply, hop, if_true]
    exact onObject_valid hos src fun ch h => ⟨by simp, moveAssignSelf_valid h⟩
  | destroy o => exact onObject_valid hos o fun ch h => ⟨destroy_defined h, destroy_valid h⟩

/-- Over every sequence of safe calls, from objects that are valid, no call touches a slot
outside its buffer and every object stays valid. -/
theorem runOps_valid [Inhabited α] (ops : List (Op α)) (hops : ∀ op ∈ ops, op.Safe) :
    ∀ os : List (BoundedChannel α), (∀ ch ∈ os, Valid ch) →
      (∀ r ∈ (runOps os ops).1, r ≠ .undefined) ∧ ∀ ch ∈ (runOps os ops).2, Valid ch := by
  induction ops with
  | nil => exact fun os hos => ⟨by simp [runOps], hos⟩
  | cons op ops ih =>
    intro os hos
    have hstep := Op.apply_valid hos (hops op (List.mem_cons_self op ops))
    have hrest := ih (fun op' h => hops op' (List.mem_cons_of_mem op h)) _ hstep.2
    refine ⟨fun r hr => ?_, hrest.2⟩
    rcases List.mem_cons.mp hr with rfl | hr
    · exact hstep.1
    · exact hrest.1 r hr

/-- A channel of capacity one, written, moved into a second object, read there, moved onto
itself, and both destroyed. -/
def handOffOps : List (Op ℕ) :=
  [.construct 1, .set 0 5, .moveConstruct 0, .get 1 (some 0), .moveAssign 0 0, .destroy 0,
    .destroy 1]

theorem runOps_valid_handOff :
    (∀ op ∈ handOffOps, op.Safe) ∧
      (∀ r ∈ (runOps [] handOffOps).1, r ≠ .undefined) ∧
        ∀ ch ∈ (runOps [] handOffOps).2, Valid ch :=
  have h : ∀ op ∈ handOffOps, op.Safe := by decide
  ⟨h, runOps_valid handOffOps h [] (by simp)⟩

end PikaLocal.Channel
