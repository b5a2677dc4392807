import LsofMount.Basic
import Mathlib.Data.UInt

/-!
# Reading the mount supplement file: `fgets`, the line checks and `hash_mnt`

`getmntdev` (`dmnt.c`, lines 163-401) reads the mount supplement file with
`fgets(buf, sizeof(buf) - 1, fs)` into a buffer of `2 * MAXPATHLEN + 1` bytes, so one call
stores at most `2 * MAXPATHLEN - 1` bytes and a longer line arrives in pieces
(`fgetsRecords`). Each record is cut at its newline and checked (lines 220-273): it must
start with `/`, its first space must be followed by `0x`, and the bytes after the `0x` must
all be hexadecimal digits; `supParse` returns the path and the device assembled in a
`dev_t`, or which check failed. `hashMnt` is `hash_mnt` (lines 406-418) on signed `char`s
and 32-bit `int`s, and `bucketOf` the bucket it selects among the `HASHMNT` chains.

`fgetsRecords_line` and `fgetsRecords_long` say where `fgets` cuts; `supParse_append_newline`
that the newline `fgets` keeps does not change the checks; `hexLoop_all_hex` that the
assembled device is the digits' value modulo `2^64`; `supParse_line_iff` which lines the
checks accept, among them `/x 0x` with no digit (`supParse_empty_hex`) and seventeen digits
worth `2^64`, recorded as device 0 (`supParse_wraps`).
-/

set_option autoImplicit false

namespace LsofMount.Supplement

open LsofMount

/-! ## Constants -/

/-- `MAXPATHLEN` of the Linux system headers (`PATH_MAX`); the headers are not part of the
repository. -/
def MAXPATHLEN : Nat := 4096

/-- `HASHMNT`: the number of mount supplement hash buckets. -/
def HASHMNT : Nat := 128

/-- The size argument of the `fgets` call at line 218: `sizeof(buf) - 1`. -/
def supReadSize : Nat := 2 * MAXPATHLEN + 1 - 1

/-! ## `fgets` -/

/-- Successive `fgets(buf, n, fs)` calls on the unread bytes, `cur` holding the bytes of the
record being read: a record ends after a newline or when it holds `n - 1` bytes, and the
last one at end of file. -/
def fgetsRecords (n : Nat) : List UInt8 → List UInt8 → List (List UInt8)
  | cur, [] => if cur = [] then [] else [cur]
  | cur, c :: cs =>
      if c = chr '\n' ∨ cur.length + 1 = n - 1 then (cur ++ [c]) :: fgetsRecords n [] cs
      else fgetsRecords n (cur ++ [c]) cs

/-! ## The line checks -/

/-- The outcome of the checks of lines 222-273 on one record. -/
inductive SupLine where
  /-- Line 222: the line does not begin with `/`. -/
  | noPath
  /-- Line 234: no space, or the first space is not followed by `0x`. -/
  | noDevice
  /-- Line 262: a byte after the `0x` is no hexadecimal digit. -/
  | illegalDevice
  /-- The path before the first space and the assembled device number. -/
  | ok (path : CStr) (dev : UInt64)
  deriving DecidableEq, Repr

/-- One digit of the loop at lines 254-261: `dev = (dev << 4) + digit` in `dev_t`. -/
def hexStep (dev : UInt64) (c : UInt8) : UInt64 :=
  if isdigit c then (dev <<< 4) + c.toUInt64 - (chr '0').toUInt64
  else (dev <<< 4) + (tolower c).toUInt64 - (chr 'a').toUInt64 + 10

/-- The loop at lines 254-261: the device assembled and the bytes from the first one that is
no hexadecimal digit (`*dp` at the loop's end). -/
def hexLoop : CStr → UInt64 → UInt64 × CStr
  | [], dev => (dev, [])
  | c :: cs, dev => if isxdigit c then hexLoop cs (hexStep dev c) else (dev, c :: cs)

/-- Lines 220-221: the C string `fgets` left in `buf`, cut at its first newline. -/
def supLine (record : List UInt8) : CStr :=
  match strchr (cView record) (chr '\n') with
  | some i => (cView record).take i
  | none => cView record

/-- Lines 222-273 on a cut line: the three checks, and the path `buf[0..sz)` with `sz` the
index of the first space. -/
def supCheck (line : CStr) : SupLine :=
  if line.head? ≠ some (chr '/') then .noPath
  else match strchr line (chr ' ') with
    | none => .noDevice
    | some sz =>
        if (line.drop (sz + 1)).take 2 ≠ lit "0x" then .noDevice
        else
          let r := hexLoop (line.drop (sz + 3)) 0
          if r.2 ≠ [] then .illegalDevice else .ok (line.take sz) r.1

/-- Lines 220-273 on a record `fgets` returned. -/
def supParse (record : List UInt8) : SupLine := supCheck (supLine record)

/-- The path of a record that passes the checks. -/
def SupLine.path? : SupLine → Option CStr
  | .ok path _ => some path
  | _ => none

/-! ## `hash_mnt` -/

/-- `(int)c` for a signed `char` of the x86-64 target. -/
def sint (c : UInt8) : BitVec 32 := (BitVec.ofNat 8 c.toNat).signExtend 32

/-- The loop of lines 414-416 from index `i` with the hash `h` so far, on the bytes from
`dir_name[i]` on. -/
def hashAcc : CStr → Nat → BitVec 32 → BitVec 32
  | a :: b :: rest, i, h => hashAcc (b :: rest) (i + 1) (h ^^^ ((sint a * sint b) <<< (i * 3 % 13)))
  | _, _, h => h

/-- `hash_mnt(dir_name)`. -/
def hashMnt (dirName : CStr) : Nat :=
  match dirName with
  | [] => 0
  | [c] => (sint c &&& BitVec.ofNat 32 (HASHMNT - 1)).toNat
  | _ => (hashAcc dirName 0 0 &&& BitVec.ofNat 32 (HASHMNT - 1)).toNat

theorem hashMnt_lt (dirName : CStr) : hashMnt dirName < HASHMNT := by
  have hand : ∀ x : BitVec 32, (x &&& BitVec.ofNat 32 (HASHMNT - 1)).toNat < HASHMNT :=
    fun x => by
      rw [BitVec.toNat_and]
      exact Nat.lt_of_le_of_lt Nat.and_le_right (by decide)
  unfold hashMnt
  split <;> first | decide | exact hand _

/-- The bucket `MSHash[hash_mnt(dir_name)]` of a path. -/
def bucketOf (dirName : CStr) : Fin HASHMNT := ⟨hashMnt dirName, hashMnt_lt dirName⟩

/-! ## The value of the device

`dev_t` is 64 bits wide on the target; `UInt64` arithmetic wraps as the C code's does. -/

/-- The value of a hexadecimal digit. -/
def hexDigitVal (c : UInt8) : Nat := if isdigit c then c.toNat - 48 else (tolower c).toNat - 87

/-- The value of hexadecimal digits, most significant first, after the digits worth `acc`. -/
def hexVal : Nat → CStr → Nat
  | acc, [] => acc
  | acc, c :: cs => hexVal (16 * acc + hexDigitVal c) cs

theorem u64_toNat_lt (a : UInt64) : a.toNat < 2 ^ 64 := a.toBitVec.isLt

theorem u64_toNat_add (x y : UInt64) : (x + y).toNat = (x.toNat + y.toNat) % 2 ^ 64 :=
  BitVec.toNat_add x.toBitVec y.toBitVec

theorem u64_toNat_sub (x y : UInt64) : (x - y).toNat = (2 ^ 64 - y.toNat + x.toNat) % 2 ^ 64 :=
  BitVec.toNat_sub x.toBitVec y.toBitVec

theorem u64_toNat_shl4 (a : UInt64) : (a <<< 4).toNat = 16 * a.toNat % 2 ^ 64 := by
  show (a.toBitVec <<< (BitVec.ofNat 64 (4 % 64))).toNat = _
  simp [BitVec.toNat_shiftLeft, Nat.shiftLeft_eq, Nat.mul_comm]
  rfl

theorem toNat_toUInt64 (c : UInt8) : c.toUInt64.toNat = c.toNat := rfl

/-- One step of the digit loop shifts the digit's value in, modulo `2^64`. -/
theorem hexStep_toNat (dev : UInt64) {c : UInt8} (hc : isxdigit c = true) :
    (hexStep dev c).toNat = (16 * dev.toNat + hexDigitVal c) % 2 ^ 64 := by
  have hlt := u64_toNat_lt dev
  rw [isxdigit_iff] at hc
  unfold hexStep hexDigitVal
  by_cases h : isdigit c = true
  · rw [if_pos h, if_pos h]
    simp only [u64_toNat_sub, u64_toNat_add, u64_toNat_shl4, toNat_toUInt64,
      show (chr '0').toNat = 48 from rfl, Nat.reducePow] at hlt ⊢
    rw [isdigit_iff] at h
    omega
  · rw [isdigit_iff] at h
    rw [if_neg (by rwa [isdigit_iff]), if_neg (by rwa [isdigit_iff])]
    simp only [u64_toNat_sub, u64_toNat_add, u64_toNat_shl4, toNat_toUInt64, toNat_tolower,
      show (chr 'a').toNat = 97 from rfl, show (10 : UInt64).toNat = 10 from rfl,
      Nat.reducePow] at hlt ⊢
    split_ifs <;> omega

theorem hexVal_eq (x : Nat) (cs : CStr) : hexVal x cs = x * 16 ^ cs.length + hexVal 0 cs := by
  induction cs generalizing x with
  | nil => simp [hexVal]
  | cons c cs ih =>
      rw [hexVal, hexVal, ih, ih (16 * 0 + hexDigitVal c), List.length_cons, Nat.pow_succ]
      simp only [Nat.mul_zero, Nat.zero_add, Nat.add_mul, Nat.add_assoc]
      rw [Nat.mul_comm 16 x, Nat.mul_assoc, Nat.mul_comm 16]

/-- On hexadecimal digits the loop runs to the end and assembles their value modulo `2^64`. -/
theorem hexLoop_all_hex (H : CStr) (hH : ∀ c ∈ H, isxdigit c = true) (dev : UInt64) :
    (hexLoop H dev).2 = [] ∧ (hexLoop H dev).1.toNat = hexVal dev.toNat H % 2 ^ 64 := by
  induction H generalizing dev with
  | nil => exact ⟨rfl, (Nat.mod_eq_of_lt (u64_toNat_lt dev)).symm⟩
  | cons c cs ih =>
      have hc := hH c (List.mem_cons_self _ _)
      obtain ⟨h1, h2⟩ := ih (fun b hb => hH b (List.mem_cons_of_mem _ hb)) (hexStep dev c)
      rw [hexLoop, if_pos hc]
      refine ⟨h1, ?_⟩
      rw [h2, hexStep_toNat dev hc, hexVal, hexVal_eq, hexVal_eq (16 * dev.toNat + hexDigitVal c)]
      simp [Nat.add_mod, Nat.mul_mod, Nat.mod_mod]

/-! ## Where `fgets` cuts -/

/-- Bytes without a newline that still fit in the record being read join it. -/
theorem fgetsRecords_append (n : Nat) {l : List UInt8} (hl : chr '\n' ∉ l) :
    ∀ (cur rest : List UInt8), cur.length + l.length < n - 1 →
      fgetsRecords n cur (l ++ rest) = fgetsRecords n (cur ++ l) rest := by
  induction l with
  | nil => simp
  | cons c l ih =>
      intro cur rest hlen
      have hc : c ≠ chr '\n' := fun h => hl (h ▸ List.mem_cons_self _ _)
      simp only [List.length_cons] at hlen
      rw [List.cons_append, fgetsRecords, if_neg (not_or.mpr ⟨hc, by omega⟩),
        ih (fun h => hl (List.mem_cons_of_mem _ h))
        _ _ (by simp; omega), List.append_assoc, List.singleton_append]

/-- A line and its newline within `n - 1` bytes are one record. -/
theorem fgetsRecords_line (n : Nat) {l : List UInt8} (hl : chr '\n' ∉ l) (hlen : l.length + 1 ≤ n - 1)
    (rest : List UInt8) :
    fgetsRecords n [] (l ++ chr '\n' :: rest) = (l ++ [chr '\n']) :: fgetsRecords n [] rest := by
  rw [fgetsRecords_append n hl [] _ (by simp; omega), List.nil_append, fgetsRecords, if_pos (.inl rfl)]

/-- Bytes without a newline that fill a record exactly are one record. -/
theorem fgetsRecords_long (n : Nat) {l : List UInt8} (hl : chr '\n' ∉ l) (hlen : l.length = n - 1)
    (hne : l ≠ []) (rest : List UInt8) :
    fgetsRecords n [] (l ++ rest) = l :: fgetsRecords n [] rest := by
  obtain ⟨init, last, rfl⟩ := List.eq_nil_or_concat l |>.resolve_left hne
  rw [List.concat_eq_append] at hl hlen ⊢
  have hi : chr '\n' ∉ init := fun h => hl (List.mem_append_left _ h)
  simp only [List.length_append, List.length_singleton] at hlen
  rw [List.append_assoc, List.singleton_append,
    fgetsRecords_append n hi [] _ (by simp; omega), List.nil_append, fgetsRecords, if_pos (.inr hlen)]

/-! ## The checks see the line without its newline -/

theorem strchr_eq_none {s : CStr} {c : UInt8} (h : c ∉ s) : strchr s c = none := by
  induction s with
  | nil => rfl
  | cons b s ih =>
      have hb : b ≠ c := fun e => h (e ▸ List.mem_cons_self _ _)
      simp [strchr, hb, ih (fun m => h (List.mem_cons_of_mem _ m))]

theorem strchr_append_cons {pre : CStr} {c : UInt8} (h : c ∉ pre) (post : CStr) :
    strchr (pre ++ c :: post) c = some pre.length := by
  induction pre with
  | nil => simp [strchr]
  | cons b s ih =>
      have hb : b ≠ c := fun e => h (e ▸ List.mem_cons_self _ _)
      simp [strchr, hb, ih (fun m => h (List.mem_cons_of_mem _ m))]

theorem strchr_append_self {s : CStr} {c : UInt8} (h : c ∉ s) : strchr (s ++ [c]) c = some s.length :=
  strchr_append_cons h []

/-- `strchr` finds the first occurrence: the string is cut there into a prefix without `c`. -/
theorem strchr_eq_some {s : CStr} {c : UInt8} {i : Nat} (h : strchr s c = some i) :
    ∃ pre post, s = pre ++ c :: post ∧ c ∉ pre ∧ pre.length = i := by
  induction s generalizing i with
  | nil => cases h
  | cons b s ih =>
      by_cases hb : b = c
      · subst hb
        simp only [strchr, if_true, Option.some.injEq] at h
        exact ⟨[], s, rfl, List.not_mem_nil _, h⟩
      · simp only [strchr, hb, if_false] at h
        obtain ⟨j, hj, rfl⟩ := Option.map_eq_some'.mp h
        obtain ⟨pre, post, rfl, hc, rfl⟩ := ih hj
        exact ⟨b :: pre, post, rfl, by simp [Ne.symm hb, hc], rfl⟩

/-- The newline `fgets` keeps at the end of a line does not change what is checked. -/
theorem supLine_append_newline {l : List UInt8} (hl : chr '\n' ∉ l) :
    supLine (l ++ [chr '\n']) = supLine l := by
  have hview : chr '\n' ∉ cView l := fun h => hl (List.takeWhile_subset _ h)
  unfold supLine
  rw [strchr_eq_none hview]
  by_cases h0 : ∀ b ∈ l, (b != 0) = true
  · have hv : cView l = l := List.takeWhile_eq_self_iff.mpr h0
    have hv' : cView (l ++ [chr '\n']) = l ++ [chr '\n'] :=
      List.takeWhile_eq_self_iff.mpr fun b hb => by
        rcases List.mem_append.mp hb with h | h
        · exact h0 b h
        · rw [List.mem_singleton.mp h]; decide
    rw [hv', strchr_append_self hl]
    simp [hv]
  · have hv : cView (l ++ [chr '\n']) = cView l := by
      unfold cView
      rw [List.takeWhile_append, if_neg]
      intro heq
      exact h0 (List.takeWhile_eq_self_iff.mp (List.takeWhile_prefix _ |>.eq_of_length heq))
    rw [hv, strchr_eq_none hview]

theorem supParse_append_newline {l : List UInt8} (hl : chr '\n' ∉ l) :
    supParse (l ++ [chr '\n']) = supParse l := by
  rw [supParse, supParse, supLine_append_newline hl]

/-- A line without NUL or newline is checked as it is. -/
theorem supLine_of_plain {l : List UInt8} (hnl : chr '\n' ∉ l) (hnul : (0 : UInt8) ∉ l) :
    supLine l = l := by
  have hv : cView l = l :=
    List.takeWhile_eq_self_iff.mpr fun b hb => by simpa using ne_of_mem_of_not_mem hb hnul
  rw [supLine, hv, strchr_eq_none hnl]

/-! ## What the checks accept

The checks of lines 222-273 accept exactly the lines `/P 0xH` with no space in `P` and only
hexadecimal digits in `H`: no digit is required, and the device is the digits' value modulo
`2^64` (`supCheck_eq_ok_iff`). -/

/-- The shape of a line the checks accept: `/`, a path tail `P` without a space, one space,
`0x`, and the hexadecimal digits `H`. -/
def SupForm (line P H : CStr) : Prop :=
  line = (chr '/' :: P) ++ chr ' ' :: (lit "0x" ++ H) ∧ chr ' ' ∉ P ∧
    ∀ c ∈ H, isxdigit c = true

/-- The digit loop runs to the end of the line only over hexadecimal digits. -/
theorem hexLoop_snd_eq_nil {H : CStr} {dev : UInt64} (h : (hexLoop H dev).2 = []) :
    ∀ c ∈ H, isxdigit c = true := by
  induction H generalizing dev with
  | nil => simp
  | cons c cs ih =>
      unfold hexLoop at h
      split at h
      · next hc =>
          intro b hb
          rcases List.mem_cons.mp hb with rfl | hb
          · exact hc
          · exact ih h b hb
      · cases h

/-- The checks on a line that starts with `/` and has its first space after `P`. -/
theorem supCheck_form {P : CStr} (hP : chr ' ' ∉ P) (post : CStr) :
    supCheck ((chr '/' :: P) ++ chr ' ' :: post) =
      if post.take 2 ≠ lit "0x" then .noDevice
      else if (hexLoop (post.drop 2) 0).2 ≠ [] then .illegalDevice
      else .ok (chr '/' :: P) (hexLoop (post.drop 2) 0).1 := by
  have hsp : chr ' ' ∉ chr '/' :: P := by simp [hP]; decide
  let n := (chr '/' :: P).length
  have h1 : ((chr '/' :: P) ++ chr ' ' :: post).drop (n + 1) = post := by
    rw [List.drop_append_eq_append_drop]; simp [n]
  have h3 : ((chr '/' :: P) ++ chr ' ' :: post).drop (n + 3) = post.drop 2 := by
    rw [show n + 3 = (n + 1) + 2 by omega, ← List.drop_drop, h1]
  have h0 : ((chr '/' :: P) ++ chr ' ' :: post).take n = chr '/' :: P := by simp [n]
  simp only [supCheck, List.cons_append, List.head?_cons, ne_eq, not_true_eq_false, if_false]
  rw [← List.cons_append, strchr_append_cons hsp]
  dsimp only
  rw [h1, h3, h0]

theorem supCheck_eq_ok_iff (line path : CStr) (dev : UInt64) :
    supCheck line = .ok path dev ↔
      ∃ P H, SupForm line P H ∧ path = chr '/' :: P ∧ dev.toNat = hexVal 0 H % 2 ^ 64 := by
  constructor
  · intro h
    have hhead : line.head? = some (chr '/') := by
      by_contra hx
      simp [supCheck, hx] at h
    obtain ⟨sz, hsz⟩ : ∃ sz, strchr line (chr ' ') = some sz := by
      cases hs : strchr line (chr ' ') with
      | none => simp [supCheck, hhead, hs] at h
      | some sz => exact ⟨sz, rfl⟩
    -- the line is `/P`, the first space, and `post`
    obtain ⟨pre, post, rfl, hpre, -⟩ := strchr_eq_some hsz
    obtain ⟨P, rfl⟩ : ∃ P, pre = chr '/' :: P := by
      cases pre with
      | nil => exact absurd (Option.some.inj hhead) (by decide)
      | cons y P => exact ⟨P, by rw [Option.some.inj hhead]⟩
    have hP : chr ' ' ∉ P := fun h => hpre (List.mem_cons_of_mem _ h)
    rw [supCheck_form hP] at h
    split_ifs at h with h2 h3
    obtain ⟨rfl, rfl⟩ := SupLine.ok.inj h
    have hH := hexLoop_snd_eq_nil (not_not.mp h3)
    refine ⟨P, post.drop 2, ⟨?_, hP, hH⟩, rfl, (hexLoop_all_hex _ hH 0).2⟩
    rw [← not_not.mp h2, List.take_append_drop]
  · rintro ⟨P, H, ⟨rfl, hP, hH⟩, rfl, hdev⟩
    obtain ⟨h1, h2⟩ := hexLoop_all_hex H hH 0
    rw [supCheck_form hP, show (lit "0x" ++ H).take 2 = lit "0x" from rfl,
      show (lit "0x" ++ H).drop 2 = H from rfl, if_neg (not_not.mpr rfl), if_neg (not_not.mpr h1)]
    exact congrArg _ (UInt64.toNat.inj (h2.trans hdev.symm))

/-- A line of the supplement file, read as one record with its newline, passes the checks
exactly when it is `/P 0xH` with no space in `P` and hexadecimal digits `H`; its path is
`/P` and its device the value of `H` modulo `2^64`. -/
theorem supParse_line_iff (L : CStr) (hnl : chr '\n' ∉ L) (hnul : (0 : UInt8) ∉ L)
    (path : CStr) (dev : UInt64) :
    supParse (L ++ [chr '\n']) = .ok path dev ↔
      ∃ P H, SupForm L P H ∧ path = chr '/' :: P ∧ dev.toNat = hexVal 0 H % 2 ^ 64 := by
  rw [supParse_append_newline hnl, supParse, supLine_of_plain hnl hnul, supCheck_eq_ok_iff]

/-- The line `/x 0x`, with no digit, passes the checks with device 0. -/
theorem supParse_empty_hex : supParse (lit "/x 0x" ++ [chr '\n']) = .ok (lit "/x") 0 :=
  (supParse_line_iff _ (by decide) (by decide) _ _).mpr
    ⟨lit "x", [], ⟨rfl, by decide, by simp⟩, rfl, rfl⟩

/-- Seventeen digits worth `2^64` pass as well, the device wrapping to 0. -/
theorem supParse_wraps :
    supParse (lit "/x 0x10000000000000000" ++ [chr '\n']) = .ok (lit "/x") 0 := by
  decide

end LsofMount.Supplement
