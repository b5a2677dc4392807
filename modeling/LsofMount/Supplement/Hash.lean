import LsofMount.Supplement.Line
import Mathlib.Tactic.Linarith

/-!
# `hash_mnt` under the rules of C's `int`

`hashMnt` computes `hash_mnt` (`dmnt.c`, lines 406-418) in 32-bit two's complement, where
every shift has a value. C gives `E1 << E2` on `int` a value only when `E1` is non-negative
and `E1 * 2^E2` is representable (C11 6.5.7, paragraph 4). With `char` signed on the x86-64
target, `(int)dir_name[i]` is negative for a byte above 127, so the product of such a byte
with a byte below 128 is negative and its shift undefined. `hashMntC` runs the loop under
these rules, with `none` at the first undefined shift.

## What this module proves

- `term_fits`: every product of two `char`s shifted by at most 12 lies strictly between
  `-2^31` and `2^31`, so no shift overflows.
- `hashMntC_eq_none_iff`: the loop meets an undefined shift exactly when two adjacent
  bytes of the path have a negative product, as in `/é` (`hashMntC_slash_e_acute`).
- `hashMntC_eq_some`: when every shift is defined, `hash_mnt` returns `hashMnt`, below
  `HASHMNT`; `term_eq` is the step that connects the two models, term by term.
-/

set_option autoImplicit false

namespace LsofMount.Supplement

open LsofMount

/-- `(int)c` for a signed `char` of the target. -/
def cInt (c : UInt8) : Int := if c.toNat < 128 then c.toNat else c.toNat - 256

/-- `E1 << E2` on `int`: `E1 * 2^E2` for a non-negative `E1` when it is representable,
undefined (`none`) otherwise. -/
def shlInt (a : Int) (k : Nat) : Option Int :=
  if 0 ≤ a ∧ a * 2 ^ k < 2 ^ 31 then some (a * 2 ^ k) else none

/-- The loop of lines 414-416 under C's rules, from index `i` with the hash `h` so far:
`h ^= ((int)dir_name[i] * (int)dir_name[i + 1]) << ((i * 3) % 13)`. -/
def hashAccC : CStr → Nat → BitVec 32 → Option (BitVec 32)
  | a :: b :: rest, i, h =>
      (shlInt (cInt a * cInt b) (i * 3 % 13)).bind fun t =>
        hashAccC (b :: rest) (i + 1) (h ^^^ BitVec.ofInt 32 t)
  | _, _, h => some h

/-- `hash_mnt(dir_name)` under C's rules: `none` when a shift is undefined. -/
def hashMntC (dirName : CStr) : Option Nat :=
  match dirName with
  | [] => some 0
  | [c] => some (sint c &&& BitVec.ofNat 32 (HASHMNT - 1)).toNat
  | _ => (hashAccC dirName 0 0).map fun h => (h &&& BitVec.ofNat 32 (HASHMNT - 1)).toNat

/-! ## One term -/

theorem cInt_bounds (c : UInt8) : -128 ≤ cInt c ∧ cInt c < 128 := by
  have := toNat_lt_256 c
  unfold cInt
  split <;> omega

/-- The model's sign extension is `(int)c`. -/
theorem sint_eq (c : UInt8) : sint c = BitVec.ofInt 32 (cInt c) := by
  have := toNat_lt_256 c
  rw [sint, BitVec.signExtend, BitVec.toInt_ofNat]
  refine congrArg (BitVec.ofInt 32) ?_
  rw [show ((2 : Nat) ^ 8 : Nat) = 256 from rfl]
  unfold cInt Int.bmod
  rw [Int.emod_eq_of_lt (by omega) (by omega)]
  dsimp only
  split <;> split <;> omega

/-- The term `hashMnt` shifts in is the 32-bit image of C's value of the term. -/
theorem term_eq (a b : UInt8) (k : Nat) :
    (sint a * sint b) <<< k = BitVec.ofInt 32 (cInt a * cInt b * 2 ^ k) := by
  have htw : BitVec.twoPow 32 k = BitVec.ofInt 32 ((2 : Int) ^ k) := by
    rw [show ((2 : Int) ^ k) = ((2 ^ k : Nat) : Int) by push_cast; rfl, BitVec.ofInt_natCast]
    apply BitVec.eq_of_toNat_eq
    simp
  rw [BitVec.shiftLeft_eq_mul_twoPow, htw, sint_eq, sint_eq, BitVec.ofInt_mul, BitVec.ofInt_mul]

theorem product_bounds (a b : UInt8) : -2 ^ 14 ≤ cInt a * cInt b ∧ cInt a * cInt b ≤ 2 ^ 14 := by
  obtain ⟨ha1, ha2⟩ := cInt_bounds a
  obtain ⟨hb1, hb2⟩ := cInt_bounds b
  constructor <;> nlinarith

theorem two_pow_le_of_lt_13 {k : Nat} (hk : k < 13) : (2 : Int) ^ k ≤ 2 ^ 12 :=
  pow_le_pow_right₀ (by norm_num) (by omega)

/-- Every shifted product of two `char`s has a magnitude below `2^31`. -/
theorem term_fits (a b : UInt8) {k : Nat} (hk : k < 13) :
    -2 ^ 31 < cInt a * cInt b * 2 ^ k ∧ cInt a * cInt b * 2 ^ k < 2 ^ 31 := by
  obtain ⟨h1, h2⟩ := product_bounds a b
  have hk' := two_pow_le_of_lt_13 hk
  have hpos : (0 : Int) < 2 ^ k := by positivity
  constructor <;> nlinarith

/-- The shift of a term is defined exactly when the product is non-negative. -/
theorem shlInt_product (a b : UInt8) {k : Nat} (hk : k < 13) :
    shlInt (cInt a * cInt b) k =
      if 0 ≤ cInt a * cInt b then some (cInt a * cInt b * 2 ^ k) else none := by
  unfold shlInt
  split_ifs with h hp hp
  · rfl
  · exact absurd h.1 hp
  · exact absurd ⟨hp, (term_fits a b hk).2⟩ h
  · rfl

/-! ## The loop -/

theorem hashAccC_eq_none_iff (s : CStr) (i : Nat) (h : BitVec 32) :
    hashAccC s i h = none ↔ ∃ p ∈ s.zip s.tail, cInt p.1 * cInt p.2 < 0 := by
  induction s generalizing i h with
  | nil => simp [hashAccC]
  | cons a rest ih =>
      cases rest with
      | nil => simp [hashAccC]
      | cons b rest =>
          rw [hashAccC, shlInt_product a b (Nat.mod_lt _ (by decide))]
          simp only [List.tail_cons, List.zip_cons_cons, List.mem_cons, exists_eq_or_imp]
          by_cases hp : 0 ≤ cInt a * cInt b
          · rw [if_pos hp, Option.some_bind, ih]
            simp [hp]
          · rw [if_neg hp, Option.none_bind]
            simp only [true_iff]
            exact .inl (by omega)

/-- Where every shift is defined, the loop computes `hashAcc`. -/
theorem hashAccC_eq_some {s : CStr} {i : Nat} {h v : BitVec 32}
    (hv : hashAccC s i h = some v) : v = hashAcc s i h := by
  induction s generalizing i h with
  | nil => simpa [hashAccC, hashAcc, eq_comm] using hv
  | cons a rest ih =>
      cases rest with
      | nil => simpa [hashAccC, hashAcc, eq_comm] using hv
      | cons b rest =>
          rw [hashAccC, shlInt_product a b (Nat.mod_lt _ (by decide))] at hv
          split_ifs at hv
          · rw [Option.some_bind] at hv
            rw [ih hv, hashAcc, term_eq]
          · cases hv

/-- `hash_mnt` shifts a negative `int`, which C leaves undefined, exactly when two adjacent
bytes of the path have a negative product: one above 127 and the other a byte from 1 to
127. -/
theorem hashMntC_eq_none_iff (s : CStr) :
    hashMntC s = none ↔ ∃ p ∈ s.zip s.tail, cInt p.1 * cInt p.2 < 0 := by
  match s with
  | [] => simp [hashMntC]
  | [c] => simp [hashMntC]
  | a :: b :: rest =>
      show (hashAccC _ 0 0).map _ = none ↔ _
      rw [Option.map_eq_none', hashAccC_eq_none_iff]

/-- `/é` in UTF-8: `'/' * (char)0xc3` is `47 * -61`, so its shift is undefined. -/
theorem hashMntC_slash_e_acute : hashMntC (lit "/" ++ [0xc3, 0xa9]) = none :=
  (hashMntC_eq_none_iff _).mpr ⟨(chr '/', 0xc3), by decide, by decide⟩

/-- When every shift is defined, `hash_mnt` returns `hashMnt`, a bucket index. -/
theorem hashMntC_eq_some {s : CStr} {v : Nat} (hv : hashMntC s = some v) :
    v = hashMnt s ∧ v < HASHMNT := by
  suffices h : v = hashMnt s from ⟨h, h ▸ hashMnt_lt s⟩
  match s with
  | [] => simpa [hashMntC, hashMnt, eq_comm] using hv
  | [c] => simpa [hashMntC, hashMnt, eq_comm] using hv
  | a :: b :: rest =>
      obtain ⟨h, hh, rfl⟩ := Option.map_eq_some'.mp hv
      rw [hashAccC_eq_some hh]
      rfl

/-- On `/home`, where every shift is defined, the two models agree. -/
theorem hashMntC_eq_some_home :
    ∃ v, hashMntC (lit "/home") = some v ∧ v = hashMnt (lit "/home") ∧ v < HASHMNT :=
  ⟨_, rfl, hashMntC_eq_some rfl⟩

end LsofMount.Supplement
