import Mathlib.Data.List.Infix

/-! `message` of `logging/message.hpp`, on the host (`PIKA_COMPUTE_HOST_CODE`). The logger
writes into the `std::stringstream` `m_str`, and `full_string()` keeps a copy of its text in
`m_full_msg`, taken again after every change. `operator<<(std::ostream&, message const&)` prints
through `m_str.rdbuf()`, which reads the buffer from its get position on: what was printed is
consumed, and a print that finds nothing sets the destination's failbit. -/
namespace PikaLocal.Logging

/-- `std::stringstream` in mode `in | out`, as `message` uses it: the sequence `str()` returns,
the put position where insertions write, the get position where reads start, and whether the
stream is good. -/
structure StringStream where
  chars : List Char
  put : ℕ
  get : ℕ
  good : Bool
  put_le : put ≤ chars.length
  get_le : get ≤ chars.length

namespace StringStream

def empty : StringStream := ⟨[], 0, 0, true, le_rfl, le_rfl⟩

theorem length_write_chars {cs s : List Char} {p : ℕ} (hp : p ≤ cs.length) :
    (cs.take p ++ s ++ cs.drop (p + s.length)).length = max cs.length (p + s.length) := by
  simp only [List.length_append, List.length_take, List.length_drop, Nat.min_eq_left hp]
  omega

/-- Formatted output that produced the characters `s`. A stream that is not good writes
nothing; otherwise `s` overwrites the sequence from the put position on and extends it past its
end. -/
def write (st : StringStream) (s : List Char) : StringStream :=
  if st.good then
    { chars := st.chars.take st.put ++ s ++ st.chars.drop (st.put + s.length)
      put := st.put + s.length
      get := st.get
      good := true
      put_le := by rw [length_write_chars st.put_le]; omega
      get_le := by have := st.get_le; rw [length_write_chars st.put_le]; omega }
  else st

/-- The stream's side of `os << rdbuf()`: the characters from the get position to the end, and
the get position moved to the end. -/
def readAll (st : StringStream) : List Char × StringStream :=
  (st.chars.drop st.get, { st with get := st.chars.length, get_le := le_rfl })

end StringStream

/-- The destination `std::ostream`: what it received and whether it is good. -/
structure OStream where
  text : List Char
  good : Bool
  deriving DecidableEq, Repr

/-- `os << sb` for a non-null `sb`. A stream that is not good does nothing; otherwise the
characters of `sb` are moved over, and if there were none the failbit is set. -/
def OStream.insertBuf (os : OStream) (st : StringStream) : OStream × StringStream :=
  if os.good then
    (if st.readAll.1 = [] then { os with good := false }
      else { os with text := os.text ++ st.readAll.1 }, st.readAll.2)
  else (os, st)

@[simp] theorem OStream.insertBuf_chars (os : OStream) (st : StringStream) :
    (os.insertBuf st).2.chars = st.chars := by
  unfold OStream.insertBuf
  split <;> rfl

/-- `message`: `m_str`, `m_full_msg_computed` and `m_full_msg`. -/
structure Message where
  str : StringStream
  computed : Bool
  full : List Char

namespace Message

def init : Message := ⟨StringStream.empty, false, []⟩

/-- `message(std::stringstream msg)`: the stream is moved in and the cache is not computed. -/
def ofStream (msg : StringStream) : Message := ⟨msg, false, []⟩

/-- `message(message&& other)`: the new message and `other` afterwards. The new one takes
`other`'s stream, flag and cached text, and `other`'s flag is reset; what its moved-from stream
and string hold is unspecified, `rest` and `restFull`. -/
def moveFrom (other : Message) (rest : StringStream) (restFull : List Char) : Message × Message :=
  (⟨other.str, other.computed, other.full⟩, ⟨rest, false, restFull⟩)

/-- The body `operator<<(T&&)` and `format(...)` share: write into `m_str` and drop the cached
text. -/
def write (m : Message) (s : List Char) : Message :=
  { m with str := m.str.write s, computed := false }

/-- `operator<<(T&& v)`, with `s` the characters the insertion of `v` produces. -/
def insert (m : Message) (s : List Char) : Message := m.write s

/-- `format(format_str, args...)`, with `s` the characters `util::format_to` produces. -/
def format (m : Message) (s : List Char) : Message := m.write s

/-- `full_string()`: the cached text, taken from `m_str.str()` the first time after a change. -/
def fullString (m : Message) : List Char × Message :=
  if m.computed then (m.full, m) else (m.str.chars, { m with computed := true, full := m.str.chars })

def empty (m : Message) : Bool × Message := (m.fullString.1.isEmpty, m.fullString.2)

/-- `os << m`, that is `os << m.m_str.rdbuf()`. -/
def print (m : Message) (os : OStream) : Message × OStream :=
  ({ m with str := (os.insertBuf m.str).2 }, (os.insertBuf m.str).1)

end Message

/-- A call on a message and its destination, with the characters an insertion or a `format`
produces. -/
inductive Call where
  | insert (s : List Char)
  | format (s : List Char)
  | fullString
  | empty
  | print
  deriving DecidableEq, Repr

inductive Answer where
  | text (s : List Char)
  | isEmpty (b : Bool)
  | done
  deriving DecidableEq, Repr

namespace Message

def respond (m : Message) (os : OStream) : Call → Answer × Message × OStream
  | .insert s => (.done, m.insert s, os)
  | .format s => (.done, m.format s, os)
  | .fullString => (.text m.fullString.1, m.fullString.2, os)
  | .empty => (.isEmpty m.empty.1, m.empty.2, os)
  | .print => (.done, m.print os)

def serve (m : Message) (os : OStream) : List Call → List Answer × Message × OStream
  | [] => ([], m, os)
  | c :: cs =>
    ((m.respond os c).1 :: ((m.respond os c).2.1.serve (m.respond os c).2.2 cs).1,
      ((m.respond os c).2.1.serve (m.respond os c).2.2 cs).2)

end Message

/-- The same calls on `m_str` alone, `full_string()` reading `m_str.str()` every time: what the
cache stands for. -/
def Plain.respond (st : StringStream) (os : OStream) : Call → Answer × StringStream × OStream
  | .insert s | .format s => (.done, st.write s, os)
  | .fullString => (.text st.chars, st, os)
  | .empty => (.isEmpty st.chars.isEmpty, st, os)
  | .print => (.done, (os.insertBuf st).2, (os.insertBuf st).1)

def Plain.serve (st : StringStream) (os : OStream) : List Call → List Answer × StringStream × OStream
  | [] => ([], st, os)
  | c :: cs =>
    ((Plain.respond st os c).1 ::
        (Plain.serve (Plain.respond st os c).2.1 (Plain.respond st os c).2.2 cs).1,
      (Plain.serve (Plain.respond st os c).2.1 (Plain.respond st os c).2.2 cs).2)

namespace Message

variable {m : Message}

/-- The cached text is `m_str`'s whenever it is marked computed. -/
def Coherent (m : Message) : Prop := m.computed = true → m.full = m.str.chars

instance (m : Message) : Decidable m.Coherent := inferInstanceAs (Decidable (_ → _))

/-- One call answers as the message without its cache does, leaves `m_str` and the destination
as it does, and keeps the cache coherent. -/
theorem Coherent.respond (h : m.Coherent) (os : OStream) (c : Call) :
    (m.respond os c).1 = (Plain.respond m.str os c).1 ∧
      (m.respond os c).2.1.str = (Plain.respond m.str os c).2.1 ∧
      (m.respond os c).2.2 = (Plain.respond m.str os c).2.2 ∧ (m.respond os c).2.1.Coherent := by
  cases c with
  | insert s | format s => exact ⟨rfl, rfl, rfl, fun hc => nomatch hc⟩
  | print => exact ⟨rfl, rfl, rfl, fun hc => (h hc).trans (OStream.insertBuf_chars os m.str).symm⟩
  | fullString | empty =>
    cases hc : m.computed
    · simp [Message.respond, Message.fullString, Message.empty, Plain.respond, hc, Coherent]
    · simp [Message.respond, Message.fullString, Message.empty, Plain.respond, hc, h hc, h]

theorem Coherent.serve (h : m.Coherent) (os : OStream) (calls : List Call) :
    (m.serve os calls).1 = (Plain.serve m.str os calls).1 ∧
      (m.serve os calls).2.1.str = (Plain.serve m.str os calls).2.1 ∧
      (m.serve os calls).2.2 = (Plain.serve m.str os calls).2.2 := by
  induction calls generalizing m os with
  | nil => exact ⟨rfl, rfl, rfl⟩
  | cons c cs ih =>
    obtain ⟨h1, h2, h3, h4⟩ := h.respond os c
    obtain ⟨i1, i2, i3⟩ := ih h4 (m.respond os c).2.2
    simp only [Message.serve, Plain.serve, h1, ← h2, ← h3, i1, i2, i3, and_self]

end Message

/-- Every constructor of `message` leaves its cache coherent, and from a coherent message every
sequence of calls answers, prints and leaves `m_str` exactly as the message without its cache
does: `full_string()` and `empty()` always report the text `m_str` holds at that moment. -/
theorem fullString_agrees_with_str :
    Message.init.Coherent ∧ (∀ st, (Message.ofStream st).Coherent) ∧
      (∀ (m : Message) rest rf, m.Coherent → (m.moveFrom rest rf).1.Coherent ∧
        (m.moveFrom rest rf).2.Coherent) ∧
      ∀ (m : Message) os calls, m.Coherent →
        (m.serve os calls).1 = (Plain.serve m.str os calls).1 ∧
          (m.serve os calls).2.1.str = (Plain.serve m.str os calls).2.1 ∧
          (m.serve os calls).2.2 = (Plain.serve m.str os calls).2.2 :=
  by
  refine ⟨?_, ?_, ?_, ?_⟩
  · exact fun hc => nomatch hc
  · exact fun _ hc => nomatch hc
  · exact fun _ _ _ h => ⟨h, fun hc => nomatch hc⟩
  · exact fun _ os calls h => Message.Coherent.serve h os calls

namespace StringStream

variable {st : StringStream}

@[simp] theorem write_get (s : List Char) : (st.write s).get = st.get := by
  unfold write
  split <;> rfl

/-- A stream that writes at its end appends what a good stream is given, and keeps writing at
its end. -/
theorem write_of_put_eq (hp : st.put = st.chars.length) (s : List Char) :
    (st.write s).chars = st.chars ++ (if st.good then s else []) ∧
      (st.write s).put = (st.write s).chars.length := by
  unfold write
  split
  · simp [hp]
  · simp [hp, *]

end StringStream

/-- What was printed of a list, from `g0` up to `g`, followed by the rest from `g`, is all of it
from `g0`. -/
theorem drop_take_append_drop {l : List Char} {g0 g : ℕ} (h0 : g0 ≤ g) (hg : g ≤ l.length) :
    (l.take g).drop g0 ++ l.drop g = l.drop g0 := by
  conv_rhs => rw [← List.take_append_drop g l]
  rw [List.drop_append_of_le_length (by simp; omega)]

namespace Message

variable {m : Message} {os : OStream} {g0 : ℕ} {text0 chars0 : List Char}

@[simp] theorem fullString_str : m.fullString.2.str = m.str := by
  unfold fullString
  split <;> rfl

/-- A stream that writes at its end, printed to `os`: `os` holds, after `text0`, its characters
from the get position `g0` up to the current one, and it extends `chars0`. -/
structure Printed (g0 : ℕ) (text0 chars0 : List Char) (st : StringStream) (os : OStream) : Prop where
  put_eq : st.put = st.chars.length
  get_ge : g0 ≤ st.get
  text_eq : os.text = text0 ++ (st.chars.take st.get).drop g0
  extends_chars : chars0 <+: st.chars

theorem Printed.print (h : Printed g0 text0 chars0 m.str os) :
    Printed g0 text0 chars0 (m.print os).1.str (m.print os).2 := by
  have hg := m.str.get_le
  unfold Message.print OStream.insertBuf
  by_cases hos : os.good = true
  · by_cases hnil : m.str.readAll.1 = []
    · have he : m.str.get = m.str.chars.length :=
        le_antisymm hg (List.drop_eq_nil_iff.mp hnil)
      simp only [hos, hnil, if_true]
      exact ⟨h.put_eq, h.get_ge.trans he.le, by simpa [StringStream.readAll, he] using h.text_eq,
        h.extends_chars⟩
    · simp only [hos, hnil, if_true, if_false]
      refine ⟨h.put_eq, h.get_ge.trans hg, ?_, h.extends_chars⟩
      simp only [h.text_eq, StringStream.readAll, List.append_assoc,
        drop_take_append_drop h.get_ge hg, List.take_length]
  · simp only [hos, Bool.false_eq_true, if_false]
    exact h

theorem Printed.respond (h : Printed g0 text0 chars0 m.str os) (c : Call) :
    Printed g0 text0 chars0 (m.respond os c).2.1.str (m.respond os c).2.2 := by
  cases c with
  | insert s | format s =>
    show Printed g0 text0 chars0 (m.str.write s) os
    obtain ⟨hc, hp⟩ := StringStream.write_of_put_eq h.put_eq s
    refine ⟨hp, by simpa using h.get_ge, ?_, ?_⟩
    · simp only [StringStream.write_get, hc, List.take_append_of_le_length m.str.get_le]
      exact h.text_eq
    · exact hc ▸ h.extends_chars.trans (List.prefix_append _ _)
  | fullString | empty =>
    show Printed g0 text0 chars0 m.fullString.2.str os
    rw [fullString_str]
    exact h
  | print => exact h.print

theorem serve_append : ∀ (m : Message) (os : OStream) (pre post : List Call),
    (m.serve os (pre ++ post)).2 = ((m.serve os pre).2.1.serve (m.serve os pre).2.2 post).2
  | _, _, [], _ => rfl
  | m, os, c :: cs, post => serve_append (m.respond os c).2.1 (m.respond os c).2.2 cs post

theorem serve_of_not_good (h : os.good = false) (calls : List Call) : (m.serve os calls).2.2 = os := by
  induction calls generalizing m with
  | nil => rfl
  | cons c cs ih =>
    have hc : (m.respond os c).2.2 = os := by
      cases c <;> simp [Message.respond, Message.print, OStream.insertBuf, h]
    show ((m.respond os c).2.1.serve (m.respond os c).2.2 cs).2.2 = os
    rw [hc, ih]

/-- The first print consumes what `m_str` holds from its get position on, so a second one right
after finds nothing and sets the destination's failbit. -/
theorem print_print (m : Message) (os : OStream) :
    ((m.print os).1.print (m.print os).2).2 = { (m.print os).2 with good := false } := by
  unfold Message.print OStream.insertBuf
  cases hos : os.good
  · cases os
    simp_all
  · by_cases hnil : m.str.readAll.1 = []
    · simp [hnil]
    · have hlt : ¬ m.str.chars.length ≤ m.str.get := fun hle => hnil (List.drop_eq_nil_of_le hle)
      simp [StringStream.readAll, hlt]

theorem Printed.serve (h : Printed g0 text0 chars0 m.str os) (calls : List Call) :
    Printed g0 text0 chars0 (m.serve os calls).2.1.str (m.serve os calls).2.2 := by
  induction calls generalizing m os with
  | nil => exact h
  | cons c cs ih => exact ih (h.respond c)

end Message

/-- For a message whose stream writes at its end, as one from `message()` does, printed to any
destination: over every sequence of calls the destination receives, after what it held, exactly
the characters of `m_str` from the get position at the start up to the current one, each once
and in order, and the text `m_str` held at the start is never overwritten. -/
theorem print_sends_each_char_once (m : Message) (os : OStream)
    (hp : m.str.put = m.str.chars.length) (calls : List Call) :
    (m.serve os calls).2.2.text = os.text ++
        ((m.serve os calls).2.1.str.chars.take (m.serve os calls).2.1.str.get).drop m.str.get ∧
      m.str.chars <+: (m.serve os calls).2.1.str.chars := by
  have h0 : Message.Printed m.str.get os.text m.str.chars m.str os :=
    ⟨hp, le_rfl, by rw [List.drop_eq_nil_of_le (List.length_take_le _ _), List.append_nil],
      List.prefix_refl _⟩
  have h := h0.serve calls
  exact ⟨h.text_eq, h.extends_chars⟩

/-- Text, a print, more text and a print, to a good destination. -/
def printCalls : List Call := [.insert ['a', 'b'], .print, .format ['c'], .print]

theorem print_sends_each_char_once_init :
    Message.init.str.put = Message.init.str.chars.length ∧
      (Message.init.serve ⟨[], true⟩ printCalls).2.2.text = [] ++
        ((Message.init.serve ⟨[], true⟩ printCalls).2.1.str.chars.take
          (Message.init.serve ⟨[], true⟩ printCalls).2.1.str.get).drop Message.init.str.get ∧
      Message.init.str.chars <+: (Message.init.serve ⟨[], true⟩ printCalls).2.1.str.chars :=
  ⟨rfl, print_sends_each_char_once Message.init ⟨[], true⟩ rfl printCalls⟩

/-- For every message, destination and calls around them, printing the message twice in a row
leaves the destination as the first print left it with its failbit set: the second print and
everything printed to it afterwards are lost. -/
theorem print_twice_fails_destination (m : Message) (os : OStream) (pre post : List Call) :
    (m.serve os (pre ++ .print :: .print :: post)).2.2 =
      { ((m.serve os pre).2.1.print (m.serve os pre).2.2).2 with good := false } := by
  rw [Message.serve_append]
  have h2 := Message.print_print (m.serve os pre).2.1 (m.serve os pre).2.2
  exact (Message.serve_of_not_good (congrArg OStream.good h2) post).trans h2

end PikaLocal.Logging
