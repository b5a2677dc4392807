import LsofMount.Basic
import Mathlib.Data.List.GetD
import Mathlib.Data.Finset.Basic

/-!
# `convert_octal_escaped`: undoing the kernel's octal mangling of mount fields

`/proc/mounts` writes a space, tab, newline or backslash of a device name or mount point as
a backslash and three octal digits. `readmnt` undoes this with `convert_octal_escaped`
(`dmnt.c`, lines 64-155), modelled here index for index as `convertOctalEscaped`: the outer
loop over `orig_idx`, the three-digit loop over `temp_idx`, the write index `cvt_idx` (the
length of the bytes written so far) against the allocated length `cvt_len`, and the grow
branch with its `realloc`. The allocator's answers are parameters. The two loops recurse
on a measure and are kept `semireducible`, so that `decide` runs them on concrete strings.

`octalDec` is the decoding stated clause by clause: a backslash and three octal digits give
one byte, anything else is copied. `convertOctalEscaped_eq` shows the code computes it on
every string, and `convertOctalEscaped_escape` that it inverts every escaping `escapeBytes E`
of a set `E` of bytes that contains the backslash.

`Reaches` gives the states a run of the copy loop passes, and `escapeReads` the indices each
turn reads; `convertOctalEscaped_accesses` bounds the reads and writes over every run.
-/

set_option autoImplicit false

namespace LsofMount.OctalEscape

open LsofMount

/-! ## The code -/

/-- `orig_str[i]`: a byte of the string, or the terminating NUL at and past its length. -/
def cAt (s : CStr) (i : Nat) : UInt8 := s.getD i 0

/-- The test of lines 100-101 passes: the byte is one of `'0'` to `'7'`. For a byte above
127 the signed `char` is negative, below `'0'`, so it is no octal digit either way. -/
def isOctal (b : UInt8) : Bool := !(b < chr '0' || b > chr '7')

/-- The digit loop of lines 98-111 from index `tempIdx` on: the value `tempCh` assembled so
far and the index at which the loop stops. The loop reads `orig_str[orig_idx + temp_idx]`
before it tests `temp_idx < 4`. -/
@[semireducible]
def octalDigits (s : CStr) (origIdx tempCh tempIdx : Nat) : Nat × Nat :=
  if cAt s (origIdx + tempIdx) ≠ 0 ∧ tempIdx < 4 then
    if isOctal (cAt s (origIdx + tempIdx)) then
      octalDigits s origIdx
        ((tempCh <<< 3) + ((cAt s (origIdx + tempIdx)).toNat - (chr '0').toNat)) (tempIdx + 1)
    else (tempCh, tempIdx)
  else (tempCh, tempIdx)
termination_by 4 - tempIdx
decreasing_by omega

/-- Lines 90-124 at `orig_idx`: the byte `cur_ch` to copy, and how far `orig_idx` is moved
on before the loop's own increment (`orig_idx += 3` for a converted escape). -/
def escapeAt (s : CStr) (origIdx : Nat) : UInt8 × Nat :=
  if cAt s origIdx = chr '\\' ∧ origIdx + 3 < s.length then
    let r := octalDigits s origIdx 0 1
    if r.2 = 4 then ((r.1 &&& 0xff).toUInt8, 3) else (cAt s origIdx, 0)
  else (cAt s origIdx, 0)

/-- The copy loop of lines 88-148 from `orig_idx`, with `cvt_len` bytes allocated and the
bytes `cvt` written (so `cvt_idx = cvt.length`). A failed `realloc` returns `NULL`;
`reallocOk n` is the allocator's answer to a request of `n` bytes. -/
@[semireducible]
def convertLoop (s : CStr) (reallocOk : Nat → Bool) (origIdx cvtLen : Nat) (cvt : CStr) :
    Option CStr :=
  if origIdx < s.length then
    let e := escapeAt s origIdx
    if cvt.length ≥ cvtLen then
      if reallocOk (cvtLen + 64 + 1) then
        convertLoop s reallocOk (origIdx + e.2 + 1) (cvtLen + 64) (cvt ++ [e.1])
      else none
    else convertLoop s reallocOk (origIdx + e.2 + 1) cvtLen (cvt ++ [e.1])
  else some cvt
termination_by s.length - origIdx

/-- `convert_octal_escaped(ctx, orig_str)`: `NULL` for an empty string or a failed `malloc`
(`mallocOk = false`), otherwise the converted copy. -/
def convertOctalEscaped (mallocOk : Bool) (reallocOk : Nat → Bool) (origStr : CStr) :
    Option CStr :=
  if origStr.length = 0 then none
  else if mallocOk then convertLoop origStr reallocOk 0 origStr.length []
  else none

/-! ## The decoding, clause by clause -/

/-- The byte of the escape `\abc`: `(64a + 8b + c) mod 256` of the digits' values. -/
def octalByte (a b c : UInt8) : UInt8 :=
  ((64 * (a.toNat - 48) + 8 * (b.toNat - 48) + (c.toNat - 48)) % 256).toUInt8

/-- The decoding as specified: a backslash followed by three octal digits is one byte, and
every other byte, a backslash with fewer or other followers included, is copied. -/
def octalDec : CStr → CStr
  | [] => []
  | x :: tl@(a :: b :: c :: r) =>
      if x = chr '\\' ∧ isOctal a ∧ isOctal b ∧ isOctal c then octalByte a b c :: octalDec r
      else x :: octalDec tl
  | x :: r => x :: octalDec r

/-! ## The code computes the decoding -/

theorem isOctal_iff (b : UInt8) : isOctal b = true ↔ 48 ≤ b.toNat ∧ b.toNat ≤ 55 := by
  simp [isOctal, byte_lt_iff]

theorem ne_zero_of_isOctal {b : UInt8} (h : isOctal b = true) : b ≠ 0 := by
  rw [isOctal_iff] at h
  rw [Ne, byte_eq_iff]
  simp only [UInt8.toNat_zero]
  omega

/-- One turn of the digit loop below index 4: it stops at a byte that is no octal digit,
the terminating NUL included, and otherwise shifts the digit in. -/
theorem octalDigits_step (s : CStr) (i t k : Nat) (hk : k < 4) :
    octalDigits s i t k =
      if isOctal (cAt s (i + k)) then octalDigits s i (8 * t + ((cAt s (i + k)).toNat - 48)) (k + 1)
      else (t, k) := by
  rw [octalDigits]
  by_cases h : isOctal (cAt s (i + k))
  · rw [if_pos ⟨ne_zero_of_isOctal h, hk⟩, if_pos h, if_pos h, Nat.shiftLeft_eq, Nat.mul_comm]
    rfl
  · simp only [h, if_false, Bool.false_eq_true]
    split_ifs <;> rfl

theorem octalDigits_four (s : CStr) (i t : Nat) : octalDigits s i t 4 = (t, 4) := by
  rw [octalDigits, if_neg (by omega)]

/-- The digit loop started after a backslash stops at the first byte that is no octal
digit, and after three digits with their value. -/
theorem octalDigits_one (s : CStr) (i : Nat) :
    octalDigits s i 0 1 =
      if isOctal (cAt s (i + 1)) then
        if isOctal (cAt s (i + 2)) then
          if isOctal (cAt s (i + 3)) then
            (64 * ((cAt s (i + 1)).toNat - 48) + 8 * ((cAt s (i + 2)).toNat - 48) +
              ((cAt s (i + 3)).toNat - 48), 4)
          else (8 * ((cAt s (i + 1)).toNat - 48) + ((cAt s (i + 2)).toNat - 48), 3)
        else ((cAt s (i + 1)).toNat - 48, 2)
      else (0, 1) := by
  simp (disch := omega) only [octalDigits_step, octalDigits_four, Nat.reduceAdd]
  split_ifs <;> simp only [Prod.mk.injEq, and_true] <;> omega

theorem octalDec_cons_of_ne {x : UInt8} (hx : x ≠ chr '\\') (r : CStr) :
    octalDec (x :: r) = x :: octalDec r := by
  rcases r with _ | ⟨a, _ | ⟨b, _ | ⟨c, r⟩⟩⟩ <;> simp [octalDec, hx]

theorem octalDec_cons_of_length_lt (x : UInt8) {r : CStr} (hr : r.length < 3) :
    octalDec (x :: r) = x :: octalDec r := by
  match r, hr with
  | [], _ | [_], _ | [_, _], _ => simp [octalDec]
  | _ :: _ :: _ :: _, h => exact absurd h (by simp)

/-- The digit loop runs to its end exactly when the three bytes after the backslash are octal
digits. -/
theorem octalDigits_one_snd (s : CStr) (i : Nat) :
    (octalDigits s i 0 1).2 = 4 ↔
      isOctal (cAt s (i + 1)) ∧ isOctal (cAt s (i + 2)) ∧ isOctal (cAt s (i + 3)) := by
  rw [octalDigits_one]
  split_ifs <;> simp_all

/-- One pass of the copy loop consumes `1 + skip` bytes and emits the decoding's head. -/
theorem escapeAt_spec (s : CStr) (i : Nat) (h : i < s.length) :
    i + (escapeAt s i).2 < s.length ∧
      (escapeAt s i).1 :: octalDec (s.drop (i + (escapeAt s i).2 + 1)) = octalDec (s.drop i) := by
  have hcons : ∀ j, j < s.length → s.drop j = cAt s j :: s.drop (j + 1) := fun j hj => by
    rw [cAt, List.getD_eq_getElem _ _ hj, List.drop_eq_getElem_cons hj]
  -- a byte copied as it is
  have hcopy : escapeAt s i = (cAt s i, 0) → octalDec (s.drop i) = cAt s i :: octalDec (s.drop (i + 1)) →
      i + (escapeAt s i).2 < s.length ∧
        (escapeAt s i).1 :: octalDec (s.drop (i + (escapeAt s i).2 + 1)) = octalDec (s.drop i) :=
    fun he hd => by rw [he, hd]; exact ⟨h, rfl⟩
  by_cases h3 : i + 3 < s.length
  · have hd := hcons i h
    rw [hcons (i + 1) (by omega), hcons (i + 2) (by omega), hcons (i + 3) (by omega)] at hd
    by_cases hx : cAt s i = chr '\\'
    · by_cases ho : isOctal (cAt s (i + 1)) ∧ isOctal (cAt s (i + 2)) ∧ isOctal (cAt s (i + 3))
      · obtain ⟨h1, h2, h3'⟩ := ho
        simp only [escapeAt, hx, h3, and_self, if_true, octalDigits_one, h1, h2, h3', hd, octalDec]
        refine ⟨trivial, ?_⟩
        rw [octalByte, show (0xff : Nat) = 2 ^ 8 - 1 by rfl, Nat.and_pow_two_sub_one_eq_mod]
      · refine hcopy (by rw [escapeAt, if_pos ⟨hx, h3⟩, if_neg (mt (octalDigits_one_snd s i).mp ho)]) ?_
        rw [hd, octalDec, hx, if_neg fun h => ho h.2, ← hcons (i + 1 + 1 + 1) (by omega),
          ← hcons (i + 1 + 1) (by omega), ← hcons (i + 1) (by omega)]
    · exact hcopy (by simp only [escapeAt, hx, false_and, if_false])
        (by rw [hcons i h, octalDec_cons_of_ne hx])
  · exact hcopy (by simp only [escapeAt, h3, and_false, if_false])
      (by rw [hcons i h, octalDec_cons_of_length_lt _ (by simp; omega)])

/-- The loop invariant: with `cvt_idx ≤ orig_idx` the grow branch is never taken, and the
loop appends the decoding of the unread bytes to what it has written. -/
theorem convertLoop_eq (s : CStr) (reallocOk : Nat → Bool) :
    ∀ (i : Nat) (cvt : CStr), i ≤ s.length → cvt.length ≤ i →
      convertLoop s reallocOk i s.length cvt = some (cvt ++ octalDec (s.drop i)) := by
  intro i
  induction' hn : s.length - i using Nat.strong_induction_on with n ih generalizing i
  intro cvt hi hc
  rw [convertLoop]
  by_cases hlt : i < s.length
  · obtain ⟨hle, hdec⟩ := escapeAt_spec s i hlt
    rw [if_pos hlt, if_neg (by omega), ih _ (by omega) _ rfl _ (by omega) (by simp; omega),
      List.append_assoc, List.singleton_append, hdec]
  · rw [if_neg hlt, show i = s.length by omega, List.drop_length, octalDec, List.append_nil]

/-- `convert_octal_escaped` returns `NULL` for the empty string and on a failed `malloc`,
and otherwise the decoding of its argument, whatever `realloc` would answer. -/
theorem convertOctalEscaped_eq (mallocOk : Bool) (reallocOk : Nat → Bool) (t : CStr) :
    convertOctalEscaped mallocOk reallocOk t =
      if t = [] then none else if mallocOk then some (octalDec t) else none := by
  by_cases ht : t = []
  · simp [convertOctalEscaped, ht]
  · have hlen : t.length ≠ 0 := by simpa using ht
    simp only [convertOctalEscaped, hlen, ht, if_false]
    rw [convertLoop_eq t reallocOk 0 [] (Nat.zero_le _) le_rfl]
    rfl

/-! ## Decoding undoes escaping -/

/-- A byte written as a backslash and its three octal digits, most significant first. -/
def octalEscape (b : UInt8) : CStr :=
  [chr '\\', (48 + b.toNat / 64).toUInt8, (48 + b.toNat / 8 % 8).toUInt8,
    (48 + b.toNat % 8).toUInt8]

/-- Every byte of the set `E` written as its octal escape. -/
def escapeBytes (E : Finset UInt8) : CStr → CStr
  | [] => []
  | b :: s => (if b ∈ E then octalEscape b else [b]) ++ escapeBytes E s

/-- The bytes the kernel escapes in `/proc/mounts`: space, tab, newline and backslash. -/
def procMountsEscaped : Finset UInt8 := {chr ' ', chr '\t', chr '\n', chr '\\'}

theorem octalDec_octalEscape (b : UInt8) (r : CStr) :
    octalDec (octalEscape b ++ r) = b :: octalDec r := by
  have hb := toNat_lt_256 b
  have hd : ∀ n, n < 8 → isOctal (48 + n).toUInt8 = true ∧ ((48 + n).toUInt8).toNat = 48 + n :=
    fun n hn => by
      rw [isOctal_iff, toNat_toUInt8, Nat.mod_eq_of_lt (by omega)]
      omega
  obtain ⟨h1, e1⟩ := hd (b.toNat / 64) (by omega)
  obtain ⟨h2, e2⟩ := hd (b.toNat / 8 % 8) (by omega)
  obtain ⟨h3, e3⟩ := hd (b.toNat % 8) (by omega)
  simp only [octalEscape, List.cons_append, List.nil_append, octalDec, h1, h2, h3, and_self,
    if_true, octalByte, e1, e2, e3]
  congr 1
  rw [byte_eq_iff, toNat_toUInt8]
  omega

theorem octalDec_escapeBytes (E : Finset UInt8) (hE : chr '\\' ∈ E) (s : CStr) :
    octalDec (escapeBytes E s) = s := by
  induction s with
  | nil => simp [escapeBytes, octalDec]
  | cons b s ih =>
      by_cases hb : b ∈ E
      · rw [escapeBytes, if_pos hb, octalDec_octalEscape, ih]
      · have hne : b ≠ chr '\\' := fun h => hb (h ▸ hE)
        rw [escapeBytes, if_neg hb, List.singleton_append, octalDec_cons_of_ne hne, ih]

theorem escapeBytes_eq_nil {E : Finset UInt8} {s : CStr} : escapeBytes E s = [] ↔ s = [] := by
  cases s with
  | nil => simp [escapeBytes]
  | cons b s => by_cases hb : b ∈ E <;> simp [escapeBytes, hb, octalEscape]

/-- `convert_octal_escaped` inverts the escaping of every set of bytes that holds the
backslash: on a non-empty string it returns the string itself whenever `malloc` succeeds. -/
theorem convertOctalEscaped_escape (E : Finset UInt8) (hE : chr '\\' ∈ E)
    (mallocOk : Bool) (reallocOk : Nat → Bool) (s : CStr) :
    convertOctalEscaped mallocOk reallocOk (escapeBytes E s) =
      if s = [] then none else if mallocOk then some s else none := by
  simp only [convertOctalEscaped_eq, octalDec_escapeBytes E hE, escapeBytes_eq_nil]

/-- The kernel's own escaping of a mount point is undone. -/
theorem convertOctalEscaped_procMounts :
    chr '\\' ∈ procMountsEscaped ∧
      convertOctalEscaped true (fun _ => true) (escapeBytes procMountsEscaped (lit "/mnt/a b")) =
        if lit "/mnt/a b" = [] then none else if true then some (lit "/mnt/a b") else none :=
  ⟨by decide, convertOctalEscaped_escape procMountsEscaped (by decide) true _ _⟩

/-! ## What the copy loop reads and writes -/

/-- The indices of `orig_str` the digit loop of lines 98-111 reads from `temp_idx` on. Its test
reads `orig_str[orig_idx + temp_idx]` before it tests `temp_idx < 4`, and the body reads the
same byte again; the loop goes on only after an octal digit. -/
@[semireducible]
def octalDigitsReads (s : CStr) (origIdx tempIdx : Nat) : List Nat :=
  (origIdx + tempIdx) ::
    if cAt s (origIdx + tempIdx) ≠ 0 ∧ tempIdx < 4 ∧ isOctal (cAt s (origIdx + tempIdx)) then
      octalDigitsReads s origIdx (tempIdx + 1)
    else []
termination_by 4 - tempIdx

/-- The indices of `orig_str` one turn of the copy loop reads: `orig_str[orig_idx]` at line 91,
and the digit loop's when the byte is a backslash with three bytes after it. -/
def escapeReads (s : CStr) (origIdx : Nat) : List Nat :=
  origIdx :: if cAt s origIdx = chr '\\' ∧ origIdx + 3 < s.length then octalDigitsReads s origIdx 1 else []

theorem octalDigitsReads_step (s : CStr) (i k : Nat) (hk : k < 4) :
    octalDigitsReads s i k =
      (i + k) :: if isOctal (cAt s (i + k)) then octalDigitsReads s i (k + 1) else [] := by
  rw [octalDigitsReads]
  by_cases h : isOctal (cAt s (i + k))
  · rw [if_pos ⟨ne_zero_of_isOctal h, hk, h⟩, if_pos h]
  · rw [if_neg (fun h' => h h'.2.2), if_neg h]

theorem octalDigitsReads_four (s : CStr) (i : Nat) : octalDigitsReads s i 4 = [i + 4] := by
  rw [octalDigitsReads, if_neg (by omega)]

theorem octalDigitsReads_one (s : CStr) (i : Nat) :
    octalDigitsReads s i 1 =
      if isOctal (cAt s (i + 1)) then
        if isOctal (cAt s (i + 2)) then
          if isOctal (cAt s (i + 3)) then [i + 1, i + 2, i + 3, i + 4] else [i + 1, i + 2, i + 3]
        else [i + 1, i + 2]
      else [i + 1] := by
  simp (disch := omega) only [octalDigitsReads_step, octalDigitsReads_four, Nat.reduceAdd]
  split_ifs <;> rfl

/-- A turn reads no further than the terminating NUL, and reads the NUL exactly when it converts
an escape that ends the string. -/
theorem escapeReads_spec (s : CStr) {i : Nat} (hi : i < s.length) :
    (∀ j ∈ escapeReads s i, j ≤ s.length) ∧
      (s.length ∈ escapeReads s i ↔ i + 4 = s.length ∧ (escapeAt s i).2 = 3) := by
  unfold escapeReads escapeAt
  by_cases hx : cAt s i = chr '\\' ∧ i + 3 < s.length
  · rw [if_pos hx, if_pos hx, octalDigitsReads_one, octalDigits_one]
    split_ifs <;> simp <;> omega
  · rw [if_neg hx, if_neg hx]
    simp
    omega

/-- One turn of the copy loop (lines 90-147) at `orig_idx`: the state at the next test of line
89, or `none` when `realloc` fails. -/
def convertStep (s : CStr) (reallocOk : Nat → Bool) (origIdx cvtLen : Nat) (cvt : CStr) :
    Option (Nat × Nat × CStr) :=
  let e := escapeAt s origIdx
  if cvt.length ≥ cvtLen then
    if reallocOk (cvtLen + 64 + 1) then some (origIdx + e.2 + 1, cvtLen + 64, cvt ++ [e.1])
    else none
  else some (origIdx + e.2 + 1, cvtLen, cvt ++ [e.1])

theorem convertLoop_step (s : CStr) (reallocOk : Nat → Bool) {origIdx : Nat} (cvtLen : Nat)
    (cvt : CStr) (h : origIdx < s.length) :
    convertLoop s reallocOk origIdx cvtLen cvt =
      (convertStep s reallocOk origIdx cvtLen cvt).elim none
        fun st => convertLoop s reallocOk st.1 st.2.1 st.2.2 := by
  rw [convertLoop, if_pos h]
  unfold convertStep
  split_ifs <;> rfl

/-- The states `(orig_idx, cvt_len, cvt)` a run of the copy loop on `s` passes at the test of
line 89, with the number `k` of the turns before that converted an escape. -/
inductive Reaches (s : CStr) (reallocOk : Nat → Bool) : Nat × Nat × CStr → Nat → Prop
  | init : Reaches s reallocOk (0, s.length, []) 0
  | step {i len : Nat} {cvt : CStr} {k : Nat} {st : Nat × Nat × CStr} :
      Reaches s reallocOk (i, len, cvt) k → i < s.length →
      convertStep s reallocOk i len cvt = some st →
      Reaches s reallocOk st (if (escapeAt s i).2 = 3 then k + 1 else k)

theorem escapeAt_snd (s : CStr) (i : Nat) :
    (escapeAt s i).2 = 0 ∨ ((escapeAt s i).2 = 3 ∧ i + 3 < s.length) := by
  unfold escapeAt
  dsimp only
  split_ifs with h1
  · exact .inr ⟨rfl, h1.2⟩
  · exact .inl rfl
  · exact .inl rfl

theorem convertStep_of_lt {s : CStr} {reallocOk : Nat → Bool} {i len : Nat} {cvt : CStr}
    (h : cvt.length < len) :
    convertStep s reallocOk i len cvt =
      some (i + (escapeAt s i).2 + 1, len, cvt ++ [(escapeAt s i).1]) := by
  rw [convertStep, if_neg (by omega)]

/-- The loop invariant: `cvt_len` stays `n`, and `cvt_idx + 3k = orig_idx ≤ n`. -/
theorem Reaches.inv {s : CStr} {reallocOk : Nat → Bool} {st : Nat × Nat × CStr} {k : Nat}
    (h : Reaches s reallocOk st k) :
    st.2.1 = s.length ∧ st.2.2.length + 3 * k = st.1 ∧ st.1 ≤ s.length := by
  induction h with
  | init => exact ⟨rfl, rfl, Nat.zero_le _⟩
  | @step i len cvt k st _ hi hs ih =>
      obtain ⟨hlen, hk, -⟩ := ih
      rw [convertStep_of_lt (by dsimp only at hlen hk; omega)] at hs
      cases hs
      dsimp only at hlen hk ⊢
      rcases escapeAt_snd s i with h0 | ⟨h3, hlt⟩
      · rw [h0, if_neg (by omega)]; simp; omega
      · rw [h3, if_pos rfl]; simp; omega

/-- The loop from the start is the loop from any state it passes. -/
theorem Reaches.loop {s : CStr} {reallocOk : Nat → Bool} {st : Nat × Nat × CStr} {k : Nat}
    (h : Reaches s reallocOk st k) :
    convertLoop s reallocOk 0 s.length [] = convertLoop s reallocOk st.1 st.2.1 st.2.2 := by
  induction h with
  | init => rfl
  | step _ hi hs ih => rw [ih, convertLoop_step s reallocOk _ _ hi, hs]; rfl

/-- Every run passes a state with `orig_idx = n`, where the loop ends. -/
theorem Reaches.exists_end {s : CStr} {reallocOk : Nat → Bool} :
    ∀ (n : Nat) (st : Nat × Nat × CStr) (k : Nat), s.length - st.1 = n →
      Reaches s reallocOk st k → ∃ out k', Reaches s reallocOk (s.length, s.length, out) k' := by
  intro n
  induction n using Nat.strong_induction_on with
  | _ n ih =>
      rintro ⟨i, len, cvt⟩ k hn h
      obtain ⟨hlen, hk, hi⟩ := h.inv
      dsimp only at hlen hk hi hn
      by_cases hlt : i < s.length
      · have hnext := Reaches.step h hlt (convertStep_of_lt (by omega))
        have hle := hnext.inv.2.2
        dsimp only at hle
        exact ih _ (by omega) _ _ rfl hnext
      · obtain rfl : i = s.length := by omega
        subst hlen
        exact ⟨cvt, k, h⟩

/-- On a non-empty string of length `n`, at every turn `cvt_idx < cvt_len = n`, so the grow
branch of lines 126-142 and its `realloc` are never reached; every read is at an index of at
most `n`, and at `n`, the terminating NUL, exactly in a turn that converts an escape ending
the string; and the loop ends with `n - 3k` bytes written, `k` the escapes it converted. -/
theorem convertOctalEscaped_accesses (s : CStr) (hs : s ≠ []) (reallocOk : Nat → Bool) :
    (∀ i len cvt k, Reaches s reallocOk (i, len, cvt) k → i < s.length →
      cvt.length < len ∧ len = s.length ∧ (∀ j ∈ escapeReads s i, j ≤ s.length) ∧
      (s.length ∈ escapeReads s i ↔ i + 4 = s.length ∧ (escapeAt s i).2 = 3)) ∧
    ∃ out k, convertOctalEscaped true reallocOk s = some out ∧
      Reaches s reallocOk (s.length, s.length, out) k ∧ out.length = s.length - 3 * k := by
  refine ⟨fun i len cvt k h hi => ?_, ?_⟩
  · obtain ⟨hlen, hk, -⟩ := h.inv
    dsimp only at hlen hk
    exact ⟨by omega, hlen, escapeReads_spec s hi⟩
  · obtain ⟨out, k, h⟩ := Reaches.exists_end _ _ _ rfl (Reaches.init : Reaches s reallocOk _ _)
    obtain ⟨-, hk, -⟩ := h.inv
    dsimp only at hk
    have hlen : s.length ≠ 0 := by simpa using hs
    refine ⟨out, k, ?_, h, by omega⟩
    rw [convertOctalEscaped, if_neg hlen, if_pos rfl, h.loop, convertLoop, if_neg (Nat.lt_irrefl _)]

/-- The string `\101`: the digit loop's test after its third digit reads index 4, the NUL. -/
theorem convertOctalEscaped_reads_nul :
    Reaches (lit "\\101") (fun _ => true) (0, 4, []) 0 ∧ 4 ∈ escapeReads (lit "\\101") 0 ∧
      (lit "\\101").length = 4 :=
  ⟨.init, by decide, rfl⟩

theorem convertOctalEscaped_accesses_escape :
    lit "\\101" ≠ [] ∧
      ((∀ i len cvt k, Reaches (lit "\\101") (fun _ => false) (i, len, cvt) k → i < 4 →
        cvt.length < len ∧ len = 4 ∧ (∀ j ∈ escapeReads (lit "\\101") i, j ≤ 4) ∧
        (4 ∈ escapeReads (lit "\\101") i ↔ i + 4 = 4 ∧ (escapeAt (lit "\\101") i).2 = 3)) ∧
      ∃ out k, convertOctalEscaped true (fun _ => false) (lit "\\101") = some out ∧
        Reaches (lit "\\101") (fun _ => false) (4, 4, out) k ∧ out.length = 4 - 3 * k) :=
  ⟨by decide, convertOctalEscaped_accesses _ (by decide) _⟩

end LsofMount.OctalEscape
