import PikaLocal.Config.Strtoll

/-! The stack sizes and the OS-thread count of `runtime_configuration`
(`runtime_configuration.cpp`). The constructor and `reconfigure()` read the four stack sizes
from the `hpx.stacks` section with `init_stack_size`, which takes an entry through `strtoll`
and falls back to the compiled-in size when the entry starts with no integer constant.
`get_os_thread_count()` caches its answer in `num_os_threads`, with 0 meaning "not read yet".

The ini tree is a parameter: `section` and `get_entry_as` are not part of these sources. A
section is seen through its entries after `expand`, and `get_entry_as<std::uint32_t>` through a
function of the section, the key and the default. -/
namespace PikaLocal.Config

/-- The part of an ini `section` these members read: each entry's text, after `expand` has
substituted its `$[...]` and `${...}` references. -/
structure Section where
  entries : String → Option (List Char)

/-- `sec->get_entry(key, default_val)`: the entry, or the default where there is none. A default
without `$` expands to itself. -/
def Section.getEntry (sec : Section) (key : String) (defaultVal : List Char) : List Char :=
  (sec.entries key).getD defaultVal

/-- A compile-time stack size: the value of its macro, and the text
`HPX_PP_STRINGIZE(HPX_PP_EXPAND(...))` makes of it. -/
structure StackDefault where
  value : ℤ
  text : List Char

/-- `HPX_SMALL_STACK_SIZE`, `HPX_MEDIUM_STACK_SIZE`, `HPX_LARGE_STACK_SIZE` and
`HPX_HUGE_STACK_SIZE`. -/
structure StackDefaults where
  small : StackDefault
  medium : StackDefault
  large : StackDefault
  huge : StackDefault

/-- The members of `runtime_configuration` these functions use, with its ini tree as
`get_section` sees it. -/
structure RuntimeConfiguration where
  getSection : String → Option Section
  numOsThreads : UInt32
  smallStacksize : ℤ
  mediumStacksize : ℤ
  largeStacksize : ℤ
  hugeStacksize : ℤ

/-- `threads::thread_stacksize`: the values `get_stack_size` names, and `other` for those its
`default:` label takes. -/
inductive ThreadStacksize where
  | small_
  | medium
  | large
  | huge
  | nostack
  | other
  deriving DecidableEq, Repr

namespace RuntimeConfiguration

/-- `init_stack_size(entryname, defaultvaluestr, defaultvalue)`. -/
def initStackSize (c : RuntimeConfiguration) (entryname : String) (defaultvaluestr : List Char)
    (defaultvalue : ℤ) : ℤ :=
  match c.getSection "hpx.stacks" with
  | some sec =>
    let entry := sec.getEntry entryname defaultvaluestr
    if (strtoll entry).2 ≠ 0 then (strtoll entry).1 else defaultvalue
  | none => defaultvalue

variable (d : StackDefaults)

def initSmallStackSize (c : RuntimeConfiguration) : ℤ :=
  c.initStackSize "small_size" d.small.text d.small.value

def initMediumStackSize (c : RuntimeConfiguration) : ℤ :=
  c.initStackSize "medium_size" d.medium.text d.medium.value

def initLargeStackSize (c : RuntimeConfiguration) : ℤ :=
  c.initStackSize "large_size" d.large.text d.large.value

def initHugeStackSize (c : RuntimeConfiguration) : ℤ :=
  c.initStackSize "huge_size" d.huge.text d.huge.value

/-- The four assignments the constructor and `reconfigure()` end with. -/
def readStackSizes (c : RuntimeConfiguration) : RuntimeConfiguration :=
  { c with
    smallStacksize := c.initSmallStackSize d
    mediumStacksize := c.initMediumStackSize d
    largeStacksize := c.initLargeStackSize d
    hugeStacksize := c.initHugeStackSize d }

/-- The constructor, on the ini tree `pre_initialize_ini` built: `num_os_threads` is 0, the
stack sizes start at their macros and are then read from the tree. -/
def make (ini : String → Option Section) : RuntimeConfiguration :=
  readStackSizes d ⟨ini, 0, d.small.value, d.medium.value, d.large.value, d.huge.value⟩

/-- The constructor's `HPX_ASSERT`s: `init_small_stack_size() >= HPX_SMALL_STACK_SIZE` and
`init_huge_stack_size() <= HPX_HUGE_STACK_SIZE`. -/
def constructorAsserts (c : RuntimeConfiguration) : Bool :=
  decide (d.small.value ≤ c.initSmallStackSize d) &&
    decide (c.initHugeStackSize d ≤ d.huge.value)

/-- `reconfigure()`, on the ini tree the three initialisation passes rebuilt: the stack sizes are
read again, and `num_os_threads` is left as it is. -/
def reconfigure (c : RuntimeConfiguration) (ini : String → Option Section) :
    RuntimeConfiguration :=
  readStackSizes d { c with getSection := ini }

def getStackSize (c : RuntimeConfiguration) : ThreadStacksize → ℤ
  | .medium => c.mediumStacksize
  | .large => c.largeStacksize
  | .huge => c.hugeStacksize
  | .nostack => llongMax
  | .small_ | .other => c.smallStacksize

/-- `get_os_thread_count()`, with `entryAs` standing for `get_entry_as<std::uint32_t>`: while
`num_os_threads` is 0 it is set to 1, then to the `os_threads` entry of section `hpx`. -/
def getOsThreadCount (entryAs : Section → String → UInt32 → UInt32)
    (c : RuntimeConfiguration) : ℕ × RuntimeConfiguration :=
  if c.numOsThreads = 0 then
    let n : UInt32 :=
      match c.getSection "hpx" with
      | some sec => entryAs sec "os_threads" 1
      | none => 1
    (n.toNat, { c with numOsThreads := n })
  else (c.numOsThreads.toNat, c)

end RuntimeConfiguration

inductive ConfigCall where
  | getStackSize (s : ThreadStacksize)
  | getOsThreadCount
  | reconfigure (ini : String → Option Section)

inductive ConfigAnswer where
  | size (v : ℤ)
  | count (n : ℕ)
  | done
  deriving DecidableEq, Repr

namespace RuntimeConfiguration

variable (d : StackDefaults) (entryAs : Section → String → UInt32 → UInt32)

def respond (c : RuntimeConfiguration) : ConfigCall → ConfigAnswer × RuntimeConfiguration
  | .getStackSize s => (.size (c.getStackSize s), c)
  | .getOsThreadCount => (.count (c.getOsThreadCount entryAs).1, (c.getOsThreadCount entryAs).2)
  | .reconfigure ini => (.done, c.reconfigure d ini)

def serve (c : RuntimeConfiguration) : List ConfigCall → List ConfigAnswer × RuntimeConfiguration
  | [] => ([], c)
  | call :: calls =>
    ((c.respond d entryAs call).1 :: ((c.respond d entryAs call).2.serve calls).1,
      ((c.respond d entryAs call).2.serve calls).2)

end RuntimeConfiguration

namespace RuntimeConfiguration

variable {d : StackDefaults} {entryAs : Section → String → UInt32 → UInt32}
  {c : RuntimeConfiguration}

/-- `c` holds the stack sizes its ini tree gives. -/
structure StackSizesRead (d : StackDefaults) (c : RuntimeConfiguration) : Prop where
  small : c.smallStacksize = c.initSmallStackSize d
  medium : c.mediumStacksize = c.initMediumStackSize d
  large : c.largeStacksize = c.initLargeStackSize d
  huge : c.hugeStacksize = c.initHugeStackSize d

theorem stackSizesRead_readStackSizes (c : RuntimeConfiguration) :
    StackSizesRead d (readStackSizes d c) :=
  ⟨rfl, rfl, rfl, rfl⟩

theorem getOsThreadCount_snd (c : RuntimeConfiguration) :
    ∃ n, (c.getOsThreadCount entryAs).2 = { c with numOsThreads := n } := by
  unfold getOsThreadCount
  split
  · exact ⟨_, rfl⟩
  · exact ⟨c.numOsThreads, rfl⟩

theorem getOsThreadCount_of_ne (h : c.numOsThreads ≠ 0) :
    c.getOsThreadCount entryAs = (c.numOsThreads.toNat, c) := by
  simp [getOsThreadCount, h]

theorem StackSizesRead.respond (h : StackSizesRead d c) (call : ConfigCall) :
    StackSizesRead d (c.respond d entryAs call).2 := by
  cases call with
  | getStackSize => exact h
  | getOsThreadCount =>
    obtain ⟨n, hn⟩ := @getOsThreadCount_snd entryAs c
    show StackSizesRead d (c.getOsThreadCount entryAs).2
    rw [hn]
    exact ⟨h.small, h.medium, h.large, h.huge⟩
  | reconfigure ini => exact stackSizesRead_readStackSizes _

theorem StackSizesRead.serve (h : StackSizesRead d c) (calls : List ConfigCall) :
    StackSizesRead d (c.serve d entryAs calls).2 := by
  induction calls generalizing c with
  | nil => exact h
  | cons call calls ih => exact ih (h.respond call)

/-- A configuration holding the stack sizes of its tree answers as one constructed from it. -/
theorem StackSizesRead.getStackSize (h : StackSizesRead d c) (s : ThreadStacksize) :
    c.getStackSize s = (make d c.getSection).getStackSize s := by
  cases s with
  | small_ | other => exact h.small
  | medium => exact h.medium
  | large => exact h.large
  | huge => exact h.huge
  | nostack => rfl

/-- Once `num_os_threads` is nonzero, a call keeps it and a count answered is it. -/
theorem respond_cached (h : c.numOsThreads ≠ 0) (call : ConfigCall) :
    (c.respond d entryAs call).2.numOsThreads = c.numOsThreads ∧
      ∀ n, (c.respond d entryAs call).1 = .count n → n = c.numOsThreads.toNat := by
  cases call with
  | getStackSize => exact ⟨rfl, by simp [respond]⟩
  | getOsThreadCount => simp [respond, getOsThreadCount_of_ne h, eq_comm]
  | reconfigure ini => exact ⟨rfl, by simp [respond]⟩

theorem serve_cached (h : c.numOsThreads ≠ 0) (calls : List ConfigCall) :
    (c.serve d entryAs calls).2.numOsThreads = c.numOsThreads ∧
      ∀ n, ConfigAnswer.count n ∈ (c.serve d entryAs calls).1 → n = c.numOsThreads.toNat := by
  induction calls generalizing c with
  | nil => simp [serve]
  | cons call calls ih =>
    obtain ⟨hk, ha⟩ := @respond_cached d entryAs c h call
    obtain ⟨ik, ia⟩ := ih (hk ▸ h)
    refine ⟨ik.trans hk, fun n hn => ?_⟩
    simp only [serve, List.mem_cons] at hn
    rcases hn with hn | hn
    · exact ha n hn.symm
    · exact hk ▸ ia n hn

end RuntimeConfiguration

open RuntimeConfiguration

/-- Over every run from a constructed `runtime_configuration`, whatever the calls and the ini
trees `reconfigure()` is given, `get_stack_size` answers as a configuration freshly constructed
from the current tree would. `get_os_thread_count()`, once `num_os_threads` is nonzero, keeps
answering that count: `reconfigure()` does not reset it, whatever `os_threads` the new tree
holds. -/
theorem stack_sizes_reread_os_threads_kept (d : StackDefaults)
    (entryAs : Section → String → UInt32 → UInt32) (ini : String → Option Section)
    (calls : List ConfigCall) :
    (∀ s, ((make d ini).serve d entryAs calls).2.getStackSize s =
        (make d ((make d ini).serve d entryAs calls).2.getSection).getStackSize s) ∧
      ∀ c : RuntimeConfiguration, c.numOsThreads ≠ 0 →
        (c.serve d entryAs calls).2.numOsThreads = c.numOsThreads ∧
          ∀ n, ConfigAnswer.count n ∈ (c.serve d entryAs calls).1 → n = c.numOsThreads.toNat :=
  ⟨((stackSizesRead_readStackSizes _).serve calls).getStackSize, fun _ h => serve_cached h calls⟩

/-- The default's text is an integer constant writing its value, in the range of `long long`,
and what follows the constant cannot continue it (a suffix such as `UL`). -/
def StackDefault.Literal (sd : StackDefault) : Prop :=
  ∃ (r : Radix) (cs suffix : List Char), sd.text = cs ++ suffix ∧ isConstant r cs = true ∧
    stops r cs suffix = true ∧ sd.value = constantValue r cs ∧ sd.value ≤ llongMax

/-- The ini tree leaves the entry `name` at the default's text: it has no section `hpx.stacks`,
no such entry, or the entry is that text. -/
def Defaulted (ini : String → Option Section) (name : String) (sd : StackDefault) : Prop :=
  ∀ sec, ini "hpx.stacks" = some sec → sec.getEntry name sd.text = sd.text

/-- An entry holding an integer constant, after white space and an optional sign and followed
by text that cannot continue it, is read as the number it writes, saturated to `long long`. -/
theorem initStackSize_constant {c : RuntimeConfiguration} {sec : Section} {name : String}
    {text : List Char} {value : ℤ} (r : Radix) (cs : List Char) (sg : Sign) (ws rest : List Char)
    (hs : c.getSection "hpx.stacks" = some sec)
    (he : sec.getEntry name text = ws ++ sg.text ++ cs ++ rest)
    (hws : ∀ c ∈ ws, isSpace c = true) (hc : isConstant r cs = true)
    (hst : stops r cs rest = true) :
    c.initStackSize name text value = saturate (sg.apply (constantValue r cs)) := by
  obtain ⟨⟨ch, cs', rfl, -⟩, -⟩ := isConstant_cons hc
  have hlen : ¬ (ws ++ sg.text ++ ch :: cs').length = 0 := by simp
  simp only [initStackSize, hs, he, strtoll_constant r _ sg ws rest hws hc hst, ne_eq, hlen,
    not_false_eq_true, if_true]

theorem initStackSize_default {c : RuntimeConfiguration} {name : String} {sd : StackDefault}
    (hl : sd.Literal) (hd : Defaulted c.getSection name sd) :
    c.initStackSize name sd.text sd.value = sd.value := by
  obtain ⟨r, cs, suffix, ht, hc, hst, hv, hle⟩ := hl
  cases hs : c.getSection "hpx.stacks" with
  | none => simp [initStackSize, hs]
  | some sec =>
    have he : sec.getEntry name sd.text = [] ++ Sign.none.text ++ cs ++ suffix := by
      rw [hd sec hs, ht]
      rfl
    rw [initStackSize_constant r cs .none [] suffix hs he (by simp) hc hst, hv]
    rw [hv] at hle
    simp only [Sign.apply, saturate, llongMin]
    omega

/-- With compiled-in stack sizes whose texts write them, and an ini tree that overrides none of
them, the constructor's assertions hold and `get_stack_size` answers the compiled-in sizes. -/
theorem default_stack_sizes (d : StackDefaults) (ini : String → Option Section)
    (hl : d.small.Literal ∧ d.medium.Literal ∧ d.large.Literal ∧ d.huge.Literal)
    (hd : Defaulted ini "small_size" d.small ∧ Defaulted ini "medium_size" d.medium ∧
      Defaulted ini "large_size" d.large ∧ Defaulted ini "huge_size" d.huge) :
    (make d ini).constructorAsserts d = true ∧
      (make d ini).getStackSize .small_ = d.small.value ∧
      (make d ini).getStackSize .medium = d.medium.value ∧
      (make d ini).getStackSize .large = d.large.value ∧
      (make d ini).getStackSize .huge = d.huge.value := by
  have hs := initStackSize_default (c := make d ini) hl.1 hd.1
  have hm := initStackSize_default (c := make d ini) hl.2.1 hd.2.1
  have hg := initStackSize_default (c := make d ini) hl.2.2.1 hd.2.2.1
  have hh := initStackSize_default (c := make d ini) hl.2.2.2 hd.2.2.2
  exact ⟨by simp [constructorAsserts, initSmallStackSize, initHugeStackSize, hs, hh],
    hs, hm, hg, hh⟩

/-- Stack sizes of 64 KiB, 128 KiB, 2 MiB and 32 MiB: in hexadecimal; with an upper-case `X`,
leading zeros and a suffix; in decimal; and in octal. -/
def spelledDefaults : StackDefaults :=
  ⟨⟨0x10000, "0x10000".toList⟩, ⟨0x20000, "0X0020000UL".toList⟩,
    ⟨0x200000, "2097152".toList⟩, ⟨0x2000000, "0200000000".toList⟩⟩

def emptyStacks : String → Option Section := fun _ => some ⟨fun _ => none⟩

theorem default_stack_sizes_spelled :
    (spelledDefaults.small.Literal ∧ spelledDefaults.medium.Literal ∧
        spelledDefaults.large.Literal ∧ spelledDefaults.huge.Literal) ∧
      (Defaulted emptyStacks "small_size" spelledDefaults.small ∧
        Defaulted emptyStacks "medium_size" spelledDefaults.medium ∧
        Defaulted emptyStacks "large_size" spelledDefaults.large ∧
        Defaulted emptyStacks "huge_size" spelledDefaults.huge) ∧
      (make spelledDefaults emptyStacks).constructorAsserts spelledDefaults = true ∧
      (make spelledDefaults emptyStacks).getStackSize .small_ = spelledDefaults.small.value ∧
      (make spelledDefaults emptyStacks).getStackSize .medium = spelledDefaults.medium.value ∧
      (make spelledDefaults emptyStacks).getStackSize .large = spelledDefaults.large.value ∧
      (make spelledDefaults emptyStacks).getStackSize .huge = spelledDefaults.huge.value := by
  have hl : spelledDefaults.small.Literal ∧ spelledDefaults.medium.Literal ∧
      spelledDefaults.large.Literal ∧ spelledDefaults.huge.Literal :=
    ⟨⟨.hex, "0x10000".toList, [], by decide⟩, ⟨.hex, "0X0020000".toList, "UL".toList, by decide⟩,
      ⟨.decimal, "2097152".toList, [], by decide⟩, ⟨.octal, "0200000000".toList, [], by decide⟩⟩
  have hd : Defaulted emptyStacks "small_size" spelledDefaults.small ∧
      Defaulted emptyStacks "medium_size" spelledDefaults.medium ∧
      Defaulted emptyStacks "large_size" spelledDefaults.large ∧
      Defaulted emptyStacks "huge_size" spelledDefaults.huge := by
    refine ⟨?_, ?_, ?_, ?_⟩ <;> rintro _ ⟨⟩ <;> rfl
  exact ⟨hl, hd, default_stack_sizes spelledDefaults emptyStacks hl hd⟩

end PikaLocal.Config
