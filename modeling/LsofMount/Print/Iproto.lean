import Mathlib.Data.Nat.Digits

/-!
# `printiproto`: the label of an Internet protocol

`printiproto` (`print.c`, lines 73-718) writes the name of protocol `p` into `Lf->iproto`, a
buffer of `IPROTOL` bytes. A protocol the switch names gets its name, cut to `IPROTOL - 1`
characters; any other gets a label built with the static `m`, set on first use to
`10^(IPROTOL-2)` by the loop of lines 710-711: `"%d?"` of `p` when `m > p`, and otherwise
`"*"`, `p % (m / 10)` and `"?"`.

`IPROTOL` and the `IPPROTO_*` constants come from `lsof.h` and the system headers, which are
not part of the repository: `IPROTOL` is the parameter `iprotol`, and the switch the
parameter `name`, `none` for its default case. `snpf` is modelled as `snprintf`: it stores at
most `size - 1` characters and the NUL. `%d` prints the decimal digits of an `int` after a
minus sign when it is negative, and C's `/` and `%` truncate towards zero.

## What this module proves

- `staticM_cases`: over every sequence of calls, `m` is `-1` or `10^(IPROTOL-2)`.
- `printiproto_history`: the static `m` makes no difference to what a call stores, whatever
  calls came before.
- `unknownLabel_length_le`: the label of an unknown protocol has at most `IPROTOL - 1`
  characters exactly when `p > -10^(IPROTOL-3)`; `toDigits_length_le_iff` counts the digits.
- `printiproto_unknown`: for every `IPROTOL ≥ 4` and every earlier sequence of calls, an
  unknown protocol's label ends in `?` and is stored whole exactly when `p > -10^(IPROTOL-3)`;
  otherwise `snpf` cuts it, and its `?` with it.
-/

set_option autoImplicit false

namespace LsofMount.Print

/-- `%d` of an `int`: its decimal digits, after a minus sign when it is negative. -/
def fmtD : Int → List Char
  | .ofNat n => Nat.toDigits 10 n
  | .negSucc n => '-' :: Nat.toDigits 10 (n + 1)

/-- `snpf(buf, size, ...)`: the formatted text cut to `size - 1` characters. -/
def snpf (size : Nat) (out : List Char) : List Char := out.take (size - 1)

/-- The loop of lines 710-711 from `m`: `m *= 10`, `k` times. -/
def mulTen : Nat → Int → Int
  | 0, m => m
  | k + 1, m => mulTen k (m * 10)

/-- Lines 713-716: the label of a protocol `p` the switch does not name, with the scale `m`. -/
def unknownLabel (m p : Int) : List Char :=
  if m > p then fmtD p ++ ['?'] else '*' :: fmtD (p.tmod (m.tdiv 10)) ++ ['?']

/-- `printiproto(ctx, p)` with the static `m`: the new `m` and the characters stored in
`Lf->iproto`. -/
def printiproto (iprotol : Nat) (name : Int → Option String) (m p : Int) : Int × List Char :=
  match name p with
  | some s => (m, snpf iprotol (s.toList.take (iprotol - 1)))
  | none =>
      let m := if m < 0 then mulTen (iprotol - 2) 1 else m
      (m, snpf iprotol (unknownLabel m p))

/-- The static `m` after the calls on the protocols `ps`, from its initial `-1`. -/
def staticM (iprotol : Nat) (name : Int → Option String) (ps : List Int) : Int :=
  ps.foldl (fun m p => (printiproto iprotol name m p).1) (-1)

/-! ## The number of digits -/

/-- Core's digit loop, given more fuel than `n`, writes as many digits as Mathlib's `digits`. -/
theorem toDigitsCore_length (f n : Nat) (ds : List Char) (hf : n < f) (hn : 0 < n) :
    (Nat.toDigitsCore 10 f n ds).length = (Nat.digits 10 n).length + ds.length := by
  induction f generalizing n ds with
  | zero => omega
  | succ f ih =>
      rw [Nat.toDigitsCore, Nat.digits_def' (by norm_num) hn]
      split
      · next h => simp [h, Nat.add_comm]
      · next h =>
          rw [ih _ _ (by omega) (by omega)]
          simp
          omega

/-- `%d` of a natural number has at most `e` digits exactly when it is below `10^e`. -/
theorem toDigits_length_le_iff (n : Nat) {e : Nat} (he : 0 < e) :
    (Nat.toDigits 10 n).length ≤ e ↔ n < 10 ^ e := by
  rcases Nat.eq_zero_or_pos n with rfl | hn
  · simp [Nat.toDigits, Nat.toDigitsCore]
    omega
  · rw [Nat.toDigits, toDigitsCore_length _ _ _ (Nat.lt_succ_self _) hn, List.length_nil,
      Nat.add_zero, Nat.digits_len 10 n (by norm_num) (by omega),
      Nat.lt_pow_iff_log_lt (by norm_num) (by omega)]
    exact Nat.add_one_le_iff

/-! ## The label -/

theorem mulTen_eq (k : Nat) (m : Int) : mulTen k m = m * 10 ^ k := by
  induction k generalizing m with
  | zero => simp [mulTen]
  | succ k ih => rw [mulTen, ih, pow_succ']; ring

theorem unknownLabel_getLast (m p : Int) : (unknownLabel m p).getLast? = some '?' := by
  unfold unknownLabel
  split_ifs <;> exact List.getLast?_concat _

/-- With `m = 10^(e+1)`, the label has at most `e + 2` characters exactly when
`p > -10^e`: a negative `p` needs its sign besides its digits. -/
theorem unknownLabel_length_le (e : Nat) (he : 0 < e) (p : Int) :
    (unknownLabel (10 ^ (e + 1)) p).length ≤ e + 2 ↔ -10 ^ e < p := by
  have hlen := fun n => toDigits_length_le_iff n he
  have hlen1 := fun n => toDigits_length_le_iff n (Nat.succ_pos e)
  have hpos : 0 < 10 ^ e := Nat.pos_pow_of_pos e (by norm_num)
  rw [show (10 : Int) ^ (e + 1) = 10 * ((10 ^ e : Nat) : Int) by push_cast; ring,
    show (10 : Int) ^ e = ((10 ^ e : Nat) : Int) by push_cast; rfl]
  simp only [pow_succ] at hlen1
  generalize 10 ^ e = D at *
  unfold unknownLabel
  split_ifs with hlt
  · cases p with
    | ofNat n =>
        have hn := (hlen1 n).mpr (by simp only [Int.ofNat_eq_coe] at hlt; omega)
        simp only [fmtD, List.length_append, List.length_singleton, Int.ofNat_eq_coe]
        omega
    | negSucc n =>
        have hn := hlen (n + 1)
        simp only [fmtD, List.length_append, List.length_singleton, List.length_cons,
          List.length_nil, Int.negSucc_eq]
        omega
  · have hlt' : p % D < D := Int.emod_lt_of_pos _ (by omega)
    rw [Int.mul_tdiv_cancel_left _ (by norm_num), Int.tmod_eq_emod (by omega) (by omega)]
    lift p % D to Nat using Int.emod_nonneg _ (by omega) with r
    have hr' := (hlen r).mpr (by omega)
    simp only [fmtD, List.length_append, List.length_singleton, List.length_cons, List.length_nil]
    omega

theorem snpf_eq_self_iff (size : Nat) (out : List Char) :
    snpf size out = out ↔ out.length ≤ size - 1 :=
  ⟨fun h => h ▸ List.length_take_le _ _, List.take_of_length_le⟩

/-! ## The calls -/

theorem printiproto_fst (iprotol : Nat) (name : Int → Option String) (m p : Int) :
    (printiproto iprotol name m p).1 =
      if name p = none ∧ m < 0 then 10 ^ (iprotol - 2) else m := by
  unfold printiproto
  cases name p with
  | some s => simp
  | none => simp [mulTen_eq]

/-- Every sequence of calls leaves `m` unset or at `10^(IPROTOL-2)`. -/
theorem staticM_cases (iprotol : Nat) (name : Int → Option String) (ps : List Int) :
    staticM iprotol name ps = -1 ∨ staticM iprotol name ps = 10 ^ (iprotol - 2) := by
  suffices h : ∀ m : Int, (m = -1 ∨ m = 10 ^ (iprotol - 2)) →
      ps.foldl (fun m p => (printiproto iprotol name m p).1) m = -1 ∨
        ps.foldl (fun m p => (printiproto iprotol name m p).1) m = 10 ^ (iprotol - 2) from
    h (-1) (.inl rfl)
  induction ps with
  | nil => exact fun m hm => hm
  | cons p ps ih =>
      intro m hm
      refine ih _ ?_
      show (printiproto iprotol name m p).1 = -1 ∨ (printiproto iprotol name m p).1 = _
      rw [printiproto_fst]
      split_ifs with h
      · exact .inr rfl
      · exact hm

/-- The static `m` only saves computing `10^(IPROTOL-2)` again: after any sequence of calls, a
call stores in `Lf->iproto` what the first call would store. -/
theorem printiproto_history (iprotol : Nat) (name : Int → Option String) (ps : List Int)
    (p : Int) :
    (printiproto iprotol name (staticM iprotol name ps) p).2 =
      (printiproto iprotol name (-1) p).2 := by
  unfold printiproto
  cases name p with
  | some s => rfl
  | none =>
      rcases staticM_cases iprotol name ps with h | h <;> rw [h]
      simp [mulTen_eq, not_lt.mpr (pow_nonneg (by norm_num : (0 : Int) ≤ 10) _)]

/-- A call on a protocol the switch does not name, after any sequence of calls: `m` is
`10^(IPROTOL-2)`, `Lf->iproto` holds the label cut by `snpf`, the label ends in `?`, and it
fits, and is stored whole, exactly when `p > -10^(IPROTOL-3)`. -/
theorem printiproto_unknown (iprotol : Nat) (hI : 4 ≤ iprotol) (name : Int → Option String)
    (ps : List Int) (p : Int) (hname : name p = none) :
    let r := printiproto iprotol name (staticM iprotol name ps) p
    r.1 = 10 ^ (iprotol - 2) ∧
      r.2 = snpf iprotol (unknownLabel (10 ^ (iprotol - 2)) p) ∧
      (unknownLabel (10 ^ (iprotol - 2)) p).getLast? = some '?' ∧
      ((unknownLabel (10 ^ (iprotol - 2)) p).length ≤ iprotol - 1 ↔ -10 ^ (iprotol - 3) < p) ∧
      (r.2 = unknownLabel (10 ^ (iprotol - 2)) p ↔ -10 ^ (iprotol - 3) < p) := by
  obtain ⟨e, rfl⟩ : ∃ e, iprotol = e + 3 := ⟨iprotol - 3, by omega⟩
  have hm : (if staticM (e + 3) name ps < 0 then mulTen (e + 3 - 2) 1 else staticM (e + 3) name ps) =
      10 ^ (e + 3 - 2) := by
    rw [mulTen_eq, one_mul]
    rcases staticM_cases (e + 3) name ps with h | h <;> rw [h] <;> simp
  have hlen := unknownLabel_length_le e (by omega) p
  simp only [printiproto, hname]
  rw [hm]
  simp only [show e + 3 - 2 = e + 1 by omega, show e + 3 - 3 = e by omega,
    show e + 3 - 1 = e + 2 by omega]
  exact ⟨trivial, trivial, unknownLabel_getLast _ _, hlen, (snpf_eq_self_iff _ _).trans hlen⟩

/-- The call on `1234567` with `IPROTOL = 8` and a switch that names nothing. -/
theorem printiproto_unknown_eight :
    4 ≤ 8 ∧ (fun _ : Int => (none : Option String)) 1234567 = none ∧
      (let r := printiproto 8 (fun _ => none) (staticM 8 (fun _ => none) []) 1234567
      r.1 = 10 ^ (8 - 2) ∧
        r.2 = snpf 8 (unknownLabel (10 ^ (8 - 2)) 1234567) ∧
        (unknownLabel (10 ^ (8 - 2)) 1234567).getLast? = some '?' ∧
        ((unknownLabel (10 ^ (8 - 2)) 1234567).length ≤ 8 - 1 ↔ -10 ^ (8 - 3) < (1234567 : Int)) ∧
        (r.2 = unknownLabel (10 ^ (8 - 2)) 1234567 ↔ -10 ^ (8 - 3) < (1234567 : Int))) :=
  ⟨by decide, rfl, printiproto_unknown 8 (by decide) _ [] 1234567 rfl⟩

/-- With `IPROTOL = 8`, the protocol `-100000` gets the label `-100000?` of 8 characters, and
`snpf` stores `-100000`, without the `?`. -/
theorem printiproto_truncates_negative :
    unknownLabel (10 ^ 6) (-100000) = "-100000?".toList ∧
      (printiproto 8 (fun _ => none) (staticM 8 (fun _ => none) []) (-100000)).2 =
        "-100000".toList := by
  decide

end LsofMount.Print
