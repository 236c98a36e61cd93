import Mathlib.Data.Nat.Digits

/-! `std::strtoll(s, &endptr, 0)`, which `init_stack_size` applies to a configuration entry,
after the C standard (7.22.1.4) in the "C" locale: white space, an optional sign, and then the
longest integer constant of C (decimal, octal after a `0`, hexadecimal after `0x` or `0X`); its
value, saturated to `long long`, and where the constant ends. With no constant nothing is
converted and `endptr` is `s`. Every integer constant, in any of its spellings and followed by
text that cannot continue it, is read as its value (`strtoll_constant`). -/
namespace PikaLocal.Config

/-- `isspace` in the "C" locale: the blank and `\t`, `\n`, `\v`, `\f`, `\r`. -/
def isSpace (c : Char) : Bool := c.toNat == 32 || (9 ≤ c.toNat && c.toNat ≤ 13)

/-- The value of `c` as a digit of the bases up to 36: `0`–`9`, then `a`–`z` or `A`–`Z`, and 36
for a character that is a digit of none. -/
def digitValue (c : Char) : ℕ :=
  if 48 ≤ c.toNat ∧ c.toNat ≤ 57 then c.toNat - 48
  else if 97 ≤ c.toNat ∧ c.toNat ≤ 122 then c.toNat - 87
  else if 65 ≤ c.toNat ∧ c.toNat ≤ 90 then c.toNat - 55
  else 36

/-- The longest run of digits below `base` that a text starts with, most significant first, and
the text after it. -/
def spanDigits (base : ℕ) : List Char → List ℕ × List Char
  | [] => ([], [])
  | c :: cs =>
    if digitValue c < base then (digitValue c :: (spanDigits base cs).1, (spanDigits base cs).2)
    else ([], c :: cs)

/-- The value of digits in `base`, most significant first, accumulated as `strtoll` reads them. -/
def digitsValue (base : ℕ) (ds : List ℕ) : ℕ := ds.foldl (fun acc d => acc * base + d) 0

/-- `0x` or `0X` followed by a hexadecimal digit: the start of a hexadecimal constant. -/
def hexPrefix : List Char → Bool
  | z :: x :: cs => z == '0' && (x == 'x' || x == 'X') && cs.head?.any fun c => digitValue c < 16
  | _ => false

/-- The integer constant a text starts with: its base, its digits and the text after it. A `0`
not followed by a hexadecimal prefix starts an octal constant, of which it is a digit. -/
def integerConstant (s : List Char) : ℕ × List ℕ × List Char :=
  if hexPrefix s then (16, spanDigits 16 (s.drop 2))
  else if s.head? = some '0' then (8, spanDigits 8 s)
  else (10, spanDigits 10 s)

def sign : List Char → Bool × List Char
  | c :: s => if c = '-' then (true, s) else if c = '+' then (false, s) else (false, c :: s)
  | [] => (false, [])

def llongMin : ℤ := -2 ^ 63

/-- `LLONG_MAX`, also `PTRDIFF_MAX`. -/
def llongMax : ℤ := 2 ^ 63 - 1

/-- A value out of the range of `long long` is returned as `LLONG_MIN` or `LLONG_MAX`. -/
def saturate (v : ℤ) : ℤ := max llongMin (min llongMax v)

/-- `strtoll(s, &endptr, 0)`: the value and `endptr - s`. -/
def strtoll (s : List Char) : ℤ × ℕ :=
  let t := sign (s.dropWhile isSpace)
  let k := integerConstant t.2
  if k.2.1 = [] then (0, 0)
  else (saturate (if t.1 then -(digitsValue k.1 k.2.1 : ℤ) else digitsValue k.1 k.2.1),
    s.length - k.2.2.length)

/-! ### Integer constants -/

inductive Sign where
  | none
  | plus
  | minus
  deriving DecidableEq, Repr

def Sign.text : Sign → List Char
  | .none => []
  | .plus => ['+']
  | .minus => ['-']

def Sign.apply : Sign → ℤ → ℤ
  | .minus, v => -v
  | _, v => v

inductive Radix where
  | decimal
  | octal
  | hex
  deriving DecidableEq, Repr

def Radix.base : Radix → ℕ
  | .decimal => 10
  | .octal => 8
  | .hex => 16

/-- `cs` is an integer constant of C (6.4.4.1, without its suffix): a decimal digit other than
`0` and decimal digits; `0` and octal digits; or `0x` or `0X` and hexadecimal digits of either
case. -/
def isConstant : Radix → List Char → Bool
  | .decimal, c :: cs => c != '0' && (c :: cs).all (digitValue · < 10)
  | .octal, c :: cs => c == '0' && cs.all (digitValue · < 8)
  | .hex, z :: x :: d :: ds => z == '0' && (x == 'x' || x == 'X') &&
      (d :: ds).all (digitValue · < 16)
  | _, _ => false

/-- The digits of a constant: all of a decimal or an octal one, those after the `0x` of a
hexadecimal one. -/
def constantDigits : Radix → List Char → List Char
  | .hex, cs => cs.drop 2
  | _, cs => cs

/-- The number a constant writes: its digits in its base, the last the least significant. -/
def constantValue (r : Radix) (cs : List Char) : ℕ :=
  Nat.ofDigits r.base ((constantDigits r cs).map digitValue).reverse

/-- The text after a constant cannot continue it: it does not start with a digit of the radix,
nor, after a lone `0`, with `x` or `X` and a hexadecimal digit. -/
def stops (r : Radix) (cs rest : List Char) : Bool :=
  rest.head?.all (r.base ≤ digitValue ·) && (cs != ['0'] || !hexPrefix ('0' :: rest))

theorem stops_elim {r : Radix} {cs rest : List Char} (hs : stops r cs rest = true) :
    (∀ c ∈ rest.head?, r.base ≤ digitValue c) ∧ (cs = ['0'] → hexPrefix ('0' :: rest) = false) := by
  simp only [stops, Bool.and_eq_true, Bool.or_eq_true, bne_iff_ne, ne_eq,
    Bool.not_eq_true'] at hs
  refine ⟨fun c hc => ?_, fun h0 => hs.2.resolve_left (not_not.mpr h0)⟩
  cases rest with
  | nil => simp at hc
  | cons d ds => simp_all

theorem digit_not_space {c : Char} (h : digitValue c < 36) :
    isSpace c = false ∧ c ≠ '-' ∧ c ≠ '+' := by
  have hc : 48 ≤ c.toNat := by
    unfold digitValue at h
    split_ifs at h <;> omega
  refine ⟨?_, fun he => ?_, fun he => ?_⟩
  · have h32 : (c.toNat == 32) = false := beq_false_of_ne (by omega)
    simp [isSpace, h32]
    omega
  all_goals exact absurd (he ▸ hc) (by decide)

theorem spanDigits_append {b : ℕ} {ds rest : List Char} (hds : ∀ c ∈ ds, digitValue c < b)
    (hrest : ∀ c ∈ rest.head?, b ≤ digitValue c) :
    spanDigits b (ds ++ rest) = (ds.map digitValue, rest) := by
  induction ds with
  | nil =>
    cases rest with
    | nil => rfl
    | cons c cs => simp [spanDigits, Nat.not_lt.mpr (hrest c rfl)]
  | cons d ds ih =>
    simp only [List.forall_mem_cons] at hds
    simp [spanDigits, hds.1, ih hds.2]

theorem foldl_digits (b a : ℕ) (ds : List ℕ) :
    ds.foldl (fun acc d => acc * b + d) a = a * b ^ ds.length + Nat.ofDigits b ds.reverse := by
  induction ds generalizing a with
  | nil => simp [Nat.ofDigits]
  | cons d ds ih =>
    rw [List.foldl_cons, ih, List.reverse_cons, Nat.ofDigits_append, Nat.ofDigits_singleton,
      List.length_reverse, List.length_cons, pow_succ]
    ring

theorem isConstant_cons {r : Radix} {cs : List Char} (hc : isConstant r cs = true) :
    (∃ c cs', cs = c :: cs' ∧ digitValue c < 10) ∧ constantDigits r cs ≠ [] := by
  match r, cs, hc with
  | .decimal, c :: cs, hc =>
    simp only [isConstant, List.all_cons, Bool.and_eq_true, decide_eq_true_eq] at hc
    exact ⟨⟨c, cs, rfl, hc.2.1⟩, by simp [constantDigits]⟩
  | .octal, c :: cs, hc =>
    simp only [isConstant, Bool.and_eq_true, beq_iff_eq] at hc
    exact ⟨⟨c, cs, rfl, by simp [hc.1, digitValue]⟩, by simp [constantDigits]⟩
  | .hex, z :: x :: d :: ds, hc =>
    simp only [isConstant, Bool.and_eq_true, beq_iff_eq] at hc
    exact ⟨⟨z, _, rfl, by simp [hc.1.1, digitValue]⟩, by simp [constantDigits]⟩

/-- A constant followed by text that cannot continue it is read in its radix's base, its digits
up to its end. -/
theorem integerConstant_append {r : Radix} {cs rest : List Char} (hc : isConstant r cs = true)
    (hs : stops r cs rest = true) :
    integerConstant (cs ++ rest) = (r.base, (constantDigits r cs).map digitValue, rest) := by
  obtain ⟨hrest, hzero⟩ := stops_elim hs
  match r, cs, hc with
  | .decimal, c :: cs, hc =>
    simp only [isConstant, List.all_cons, Bool.and_eq_true, bne_iff_ne, ne_eq,
      decide_eq_true_eq] at hc
    have hhex : hexPrefix (c :: (cs ++ rest)) = false := by
      unfold hexPrefix
      split <;> simp_all
    have hall : ∀ d ∈ c :: cs, digitValue d < 10 := by simpa using hc.2
    have hsp := spanDigits_append hall hrest
    simp only [List.cons_append] at hsp
    simp [integerConstant, hhex, hc.1, constantDigits, Radix.base, hsp]
  | .octal, c :: cs, hc =>
    simp only [isConstant, Bool.and_eq_true, beq_iff_eq, List.all_eq_true,
      decide_eq_true_eq] at hc
    obtain ⟨rfl, hall⟩ := hc
    have hhex : hexPrefix ('0' :: (cs ++ rest)) = false := by
      cases cs with
      | nil => exact hzero rfl
      | cons x xs =>
        have hx := hall x (List.mem_cons_self x xs)
        have : x ≠ 'x' ∧ x ≠ 'X' := ⟨fun h => absurd (h ▸ hx) (by decide),
          fun h => absurd (h ▸ hx) (by decide)⟩
        simp [hexPrefix, this]
    have hall' : ∀ d ∈ '0' :: cs, digitValue d < 8 := by
      simpa [digitValue] using hall
    have hsp := spanDigits_append hall' hrest
    simp only [List.cons_append] at hsp
    simp [integerConstant, hhex, constantDigits, Radix.base, hsp]
  | .hex, z :: x :: d :: ds, hc =>
    simp only [isConstant, Bool.and_eq_true, beq_iff_eq, Bool.or_eq_true] at hc
    obtain ⟨⟨rfl, hx⟩, hall⟩ := hc
    have hall' : ∀ e ∈ d :: ds, digitValue e < 16 := by simpa using hall
    have hd := hall' d (List.mem_cons_self d ds)
    have hhex : hexPrefix ('0' :: x :: d :: (ds ++ rest)) = true := by
      simp [hexPrefix, hx, hd]
    have hsp := spanDigits_append hall' hrest
    simp only [List.cons_append] at hsp
    simp [integerConstant, hhex, constantDigits, Radix.base, hsp]

/-- Every integer constant of C, after white space and an optional sign and followed by any text
that cannot continue it (a suffix such as `UL`, a unit such as `k`, a comment, nothing), is read
as the number it writes, negated after a `-` and saturated to `long long`, and `endptr` stops
right after it: what follows is ignored. -/
theorem strtoll_constant (r : Radix) (cs : List Char) (sg : Sign) (ws rest : List Char)
    (hws : ∀ c ∈ ws, isSpace c = true) (hc : isConstant r cs = true)
    (hs : stops r cs rest = true) :
    strtoll (ws ++ sg.text ++ cs ++ rest) =
      (saturate (sg.apply (constantValue r cs)), (ws ++ sg.text ++ cs).length) := by
  obtain ⟨⟨c, cs', rfl, hc10⟩, hne⟩ := isConstant_cons hc
  obtain ⟨hsp, hm, hp⟩ := digit_not_space (c := c) (by omega)
  have hdrop : (ws ++ sg.text ++ c :: cs' ++ rest).dropWhile isSpace =
      sg.text ++ c :: cs' ++ rest := by
    rw [List.append_assoc, List.append_assoc, List.dropWhile_append_of_pos hws]
    cases sg <;> simp [Sign.text, hsp, show isSpace '-' = false by decide,
      show isSpace '+' = false by decide]
  have hsign : sign (sg.text ++ c :: cs' ++ rest) = (sg == .minus, c :: cs' ++ rest) := by
    cases sg <;> simp [sign, Sign.text, hm, hp]
  have hval : digitsValue r.base ((constantDigits r (c :: cs')).map digitValue) =
      constantValue r (c :: cs') := by
    simp [digitsValue, foldl_digits, constantValue]
  simp only [strtoll, hdrop, hsign, List.cons_append, ← List.cons_append,
    integerConstant_append hc hs, hval, List.map_eq_nil_iff, hne, if_false,
    List.length_append, Nat.add_sub_cancel]
  cases sg <;> rfl

theorem strtoll_constant_upper_hex :
    (∀ c ∈ [' '], isSpace c = true) ∧ isConstant .hex "0X0020000".toList = true ∧
      stops .hex "0X0020000".toList ['k'] = true ∧
      strtoll ([' '] ++ Sign.plus.text ++ "0X0020000".toList ++ ['k']) =
        (saturate (Sign.plus.apply (constantValue .hex "0X0020000".toList)),
          ([' '] ++ Sign.plus.text ++ "0X0020000".toList).length) :=
  ⟨by decide, by decide, by decide,
    strtoll_constant .hex _ .plus [' '] ['k'] (by decide) (by decide) (by decide)⟩

end PikaLocal.Config
