import Mathlib.Data.List.Basic

/-!
# Bytes, C strings and the stat record of the Linux mount code

`dmnt.c` works on NUL-terminated `char` arrays. A C string is modelled by the bytes before
its terminator (`CStr`), so a string holds no NUL byte by construction of the values the
code builds; where a function reads a caller's buffer, `cView` cuts the buffer at its first
NUL as the C library functions do. Characters are bytes (`UInt8`); the C locale's
classification functions (`isdigit`, `isxdigit`, `tolower`) and the comparison functions
(`strcmp`, `strcasecmp`, `strncasecmp`, `strchr`) are given on these bytes.

`Stat` keeps the four `struct stat` fields the file reads, and `StatBits` the `SB_*`
validity flags of an `int` status word, one field per flag. `Fault` names the undefined
behaviours the models detect: a read through `NULL`, a read of a released object, and a
release of an object that is not live.
-/

set_option autoImplicit false

namespace LsofMount

/-- The bytes of a C string, the terminating NUL excluded. -/
abbrev CStr := List UInt8

/-- The byte of an ASCII character. -/
def chr (c : Char) : UInt8 := c.toNat.toUInt8

/-- A string literal of the source, as the bytes the compiler stores. -/
def lit (s : String) : CStr := s.toList.map chr

/-- The C string held by a buffer: its bytes up to the first NUL. -/
def cView (buf : List UInt8) : CStr := buf.takeWhile (· != 0)

/-- `isdigit` of the C locale. -/
def isdigit (b : UInt8) : Bool := chr '0' ≤ b && b ≤ chr '9'

/-- `isxdigit` of the C locale. Bytes above 127 are no digits, whether `char` is signed
(a negative argument) or not. -/
def isxdigit (b : UInt8) : Bool :=
  isdigit b || (chr 'a' ≤ b && b ≤ chr 'f') || (chr 'A' ≤ b && b ≤ chr 'F')

/-- `tolower` of the C locale. -/
def tolower (b : UInt8) : UInt8 := if chr 'A' ≤ b && b ≤ chr 'Z' then b + 32 else b

/-- `strcasecmp(a, b) == 0`. -/
def strcasecmpEq (a b : CStr) : Bool := a.map tolower == b.map tolower

/-- `strncasecmp(a, b, n) == 0`: the first `n` bytes agree up to case, and a string that
ends before `n` bytes ends at the same place in both. -/
def strncasecmpEq (a b : CStr) (n : Nat) : Bool :=
  (a.take n).map tolower == (b.take n).map tolower

/-- `strchr(s, c)` for a non-NUL byte `c`: the index of its first occurrence. -/
def strchr : CStr → UInt8 → Option Nat
  | [], _ => none
  | b :: s, c => if b = c then some 0 else (strchr s c).map (· + 1)

/-- `struct stat` as far as `dmnt.c` reads it. -/
structure Stat where
  stDev : UInt64
  stRdev : UInt64
  stIno : UInt64
  stMode : UInt32
  deriving DecidableEq, Repr

/-- `zeromem(s, sizeof(struct stat))`. -/
def Stat.zero : Stat := ⟨0, 0, 0, 0⟩

/-- An `int` word of `SB_*` flags, one field per flag the file tests. -/
structure StatBits where
  dev : Bool
  ino : Bool
  mode : Bool
  rdev : Bool
  deriving DecidableEq, Repr

/-- No flag set: `ds = 0`. -/
def StatBits.none : StatBits := ⟨false, false, false, false⟩

/-- `SB_ALL`: every field of a successful `stat` is valid. -/
def StatBits.all : StatBits := ⟨true, true, true, true⟩

/-- Undefined behaviour the models detect instead of running on. -/
inductive Fault where
  /-- A read through a `NULL` pointer. -/
  | nullDeref
  /-- A read of an object that was released. -/
  | useAfterFree (p : Nat)
  /-- A release of an object that is not live. -/
  | doubleFree (p : Nat)
  deriving DecidableEq, Repr

/-- A bind in `Except` that succeeds: its first computation succeeded. -/
theorem bind_eq_ok {ε α β : Type} {x : Except ε α} {f : α → Except ε β} {b : β}
    (h : x >>= f = .ok b) : ∃ a, x = .ok a ∧ f a = .ok b := by
  cases x with
  | error e => exact Except.noConfusion h
  | ok a => exact ⟨a, rfl, h⟩

theorem bind_eq_ok_iff {ε α β : Type} {x : Except ε α} {f : α → Except ε β} {b : β} :
    x >>= f = .ok b ↔ ∃ a, x = .ok a ∧ f a = .ok b :=
  ⟨bind_eq_ok, fun ⟨_, hx, hf⟩ => hx ▸ hf⟩

/-- Cutting a string at its first NUL a second time changes nothing. -/
@[simp] theorem cView_cView (s : List UInt8) : cView (cView s) = cView s :=
  List.takeWhile_idem

/-! ## Bytes as numbers

The toolchain's `UInt8` has few lemmas; these move byte comparisons to `Nat`, where `omega`
decides them. -/

theorem toNat_toUInt8 (n : Nat) : n.toUInt8.toNat = n % 256 := by
  simp [Nat.toUInt8, UInt8.ofNat, UInt8.toNat, BitVec.toNat_ofNat]

@[simp] theorem toNat_chr (c : Char) : (chr c).toNat = c.toNat % 256 := toNat_toUInt8 _

theorem toNat_lt_256 (b : UInt8) : b.toNat < 256 := b.toNat_lt_size

theorem byte_lt_iff (a b : UInt8) : a < b ↔ a.toNat < b.toNat := by
  simp [UInt8.lt_def, BitVec.lt_def, UInt8.toNat]

theorem byte_le_iff (a b : UInt8) : a ≤ b ↔ a.toNat ≤ b.toNat := by
  simp [UInt8.le_def, BitVec.le_def, UInt8.toNat]

theorem byte_eq_iff (a b : UInt8) : a = b ↔ a.toNat = b.toNat :=
  ⟨congrArg UInt8.toNat, UInt8.toNat.inj⟩

theorem byte_toNat_add (x y : UInt8) : (x + y).toNat = (x.toNat + y.toNat) % 256 :=
  BitVec.toNat_add x.toBitVec y.toBitVec

theorem isdigit_iff (c : UInt8) : isdigit c = true ↔ 48 ≤ c.toNat ∧ c.toNat ≤ 57 := by
  simp [isdigit, byte_le_iff]

theorem isxdigit_iff (c : UInt8) : isxdigit c = true ↔
    (48 ≤ c.toNat ∧ c.toNat ≤ 57) ∨ (97 ≤ c.toNat ∧ c.toNat ≤ 102) ∨
      (65 ≤ c.toNat ∧ c.toNat ≤ 70) := by
  simp [isxdigit, isdigit, byte_le_iff, or_assoc]

theorem toNat_tolower (c : UInt8) :
    (tolower c).toNat = if 65 ≤ c.toNat ∧ c.toNat ≤ 90 then c.toNat + 32 else c.toNat := by
  have := toNat_lt_256 c
  unfold tolower
  by_cases h : 65 ≤ c.toNat ∧ c.toNat ≤ 90
  · rw [if_pos (by simpa [byte_le_iff] using h), if_pos h, byte_toNat_add]
    show (c.toNat + 32) % 256 = _
    omega
  · rw [if_neg (by simpa [byte_le_iff] using h), if_neg h]

end LsofMount
