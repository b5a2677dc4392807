import LsofMount.Supplement.Table

/-!
# What `getmntdev` answers over a whole run

The contract reads a supplement line `/P 0xH` as its text: the path is what precedes the
first space (`linePath`), and the device the value of the digits after ` 0x` modulo `2^64`
(`fileDev`, `fileAnswer`). For a readable file whose lines pass the checks, fit one `fgets`
call with their newlines and have distinct paths, every call answers as the file's lines
say, and only the first call reads the file (`getmntdev_supplement_lookup`). A valid line one
byte too long for that, though shorter than the buffer, leaves its newline as an empty record
that fails the checks (`getmntdev_full_line`). For a file that cannot be read, or one of whose
`fgets` records fails a check, every call returns `0` and leaves the caller's buffers alone
(`getmntdev_fail_closed`); a malformed line too long for one `fgets` call can escape the
checks (`getmntdev_long_line`).

Three runs show where the code departs from its intent: the duplicate test depends on the
first directory looked up (`getmntdev_duplicate_first_query`), an empty file leads to a read
through `NULL` (`getmntdev_empty_file`), and an allocation failure leaves a table built from
part of the file in place (`getmntdev_partial_table`).
-/

set_option autoImplicit false

namespace LsofMount.Supplement

open LsofMount

/-! ## Files of short lines -/

/-- A file of lines: each followed by a newline, the last one only when `lastNl`. -/
def supFile : List CStr → Bool → List UInt8
  | [], _ => []
  | [l], lastNl => if lastNl then l ++ [chr '\n'] else l
  | l :: ls, lastNl => l ++ chr '\n' :: supFile ls lastNl

/-- `fgets` returns each line of a file of short lines as one record. -/
theorem fgetsRecords_supFile (lastNl : Bool) :
    ∀ L : List CStr, (∀ l ∈ L, chr '\n' ∉ l ∧ l ≠ [] ∧ l.length + 1 < supReadSize) →
      (fgetsRecords supReadSize [] (supFile L lastNl)).map supParse = L.map supParse := by
  intro L
  induction L with
  | nil => intro; rfl
  | cons l ls ih =>
      intro hL
      obtain ⟨hnl, hne, hlen⟩ := hL l (List.mem_cons_self _ _)
      have hlen' : l.length + 1 ≤ supReadSize - 1 := by omega
      cases ls with
      | nil =>
          cases lastNl
          · simp only [supFile, Bool.false_eq_true, if_false]
            rw [← List.append_nil l, fgetsRecords_append _ hnl [] [] (by simp; omega)]
            simp [fgetsRecords, hne]
          · simp only [supFile, if_true]
            rw [fgetsRecords_line _ hnl hlen']
            simp [fgetsRecords, supParse_append_newline hnl]
      | cons l2 ls =>
          have hf : supFile (l :: l2 :: ls) lastNl = l ++ chr '\n' :: supFile (l2 :: ls) lastNl :=
            rfl
          rw [hf, fgetsRecords_line _ hnl hlen', List.map_cons,
            ih fun l' hl' => hL l' (List.mem_cons_of_mem _ hl'), supParse_append_newline hnl]
          rfl

/-! ## Successive calls -/

/-- `MntSup = 2` with a supplement path, and an allocator that always succeeds. -/
structure LookupMode (env : SupEnv) : Prop where
  mntSup_eq : env.mntSup = 2
  path_set : env.mntSupP ≠ none
  alloc_ok : ∀ n, env.alloc n = true

/-- Once the error flag is set every call returns `0` with the buffers untouched. -/
theorem runGetmntdev_error (env : SupEnv) {st : SupState} (h : st.mountSupError = true) :
    ∀ qs : List SupQuery, runGetmntdev env st qs = .ok (qs.map fun q => (0, q.sb, q.ss))
  | [] => rfl
  | q :: qs => by
      rw [runGetmntdev, getmntdev, if_pos h]
      show (List.cons (0, q.sb, q.ss) <$> runGetmntdev env st qs) = _
      rw [runGetmntdev_error env h qs]
      rfl

/-- A first call that reads the file with no error answers as a call on the table it built. -/
theorem getmntdev_built (env : SupEnv) {st st' : SupState} {len : Nat}
    (herr : st.mountSupError = false) (hnone : st.msHash = none)
    (hb : buildTable env len st = .next st') (herr' : st'.mountSupError = false)
    (hsome' : st'.msHash ≠ none) (d : CStr) (s : Stat) (ss : StatBits) :
    getmntdev env st d len s ss = getmntdev env st' d len s ss := by
  obtain ⟨tbl, htbl⟩ := Option.ne_none_iff_exists'.mp hsome'
  simp [getmntdev, herr, hnone, hb, herr', htbl]

/-! ## The lines as the contract reads them -/

/-- The path of a supplement line as the contract reads it: its text before the first space. -/
def linePath (l : CStr) : CStr := l.takeWhile (· != chr ' ')

/-- The hex digits of a supplement line as the contract reads them: its text after the first
space and the `0x` that follows it. -/
def lineHex (l : CStr) : CStr := (l.dropWhile (· != chr ' ')).drop 3

/-- The device the lines `L` give the directory `d`: the value of the hex digits of the first
line whose path is `d`, modulo `2^64`. -/
def fileDev (L : List CStr) (d : CStr) : Option UInt64 :=
  (L.find? fun l => linePath l == d).map fun l => UInt64.ofNat (hexVal 0 (lineHex l))

/-- The answer the lookup contract gives `q` on the lines `L`: `1`, `*s` zeroed but for
`st_dev`, and `SB_DEV` added to `*ss` when a line is for the directory; `0` with both buffers
untouched otherwise. -/
def fileAnswer (L : List CStr) (q : SupQuery) : Int × Stat × StatBits :=
  match fileDev L q.dirName with
  | some v => (1, { Stat.zero with stDev := v }, { q.ss with dev := true })
  | none => (0, q.sb, q.ss)

/-- A line of a file that meets the lookup contract: no newline or NUL inside, short enough for
one `fgets` call to return it with its newline, and of the form `/P 0xH` the checks accept. -/
def ContractLine (l : CStr) : Prop :=
  chr '\n' ∉ l ∧ (0 : UInt8) ∉ l ∧ l.length + 1 < supReadSize ∧ ∃ P H, SupForm l P H

theorem takeWhile_dropWhile_space {P : CStr} (hP : chr ' ' ∉ P) (r : CStr) :
    (P ++ chr ' ' :: r).takeWhile (· != chr ' ') = P ∧
      (P ++ chr ' ' :: r).dropWhile (· != chr ' ') = chr ' ' :: r := by
  induction P with
  | nil => simp
  | cons c P ih =>
      have hc : c ≠ chr ' ' := fun h => hP (h ▸ List.mem_cons_self _ _)
      obtain ⟨h1, h2⟩ := ih fun h => hP (List.mem_cons_of_mem _ h)
      simp [List.takeWhile_cons, List.dropWhile_cons, hc, h1, h2]

/-- A line `/P 0xH` has the path `/P` and the digits `H`. -/
theorem SupForm.path_hex {l P H : CStr} (hf : SupForm l P H) :
    linePath l = chr '/' :: P ∧ lineHex l = H := by
  obtain ⟨rfl, hP, -⟩ := hf
  have hP' : chr ' ' ∉ chr '/' :: P := by simp [hP]; decide
  obtain ⟨h1, h2⟩ := takeWhile_dropWhile_space hP' (lit "0x" ++ H)
  exact ⟨h1, by rw [lineHex, h2]; rfl⟩

/-- The checks accept a line `/P 0xH` with its path and the value of its digits. -/
theorem supParse_of_form {l P H : CStr} (hnl : chr '\n' ∉ l) (h0 : (0 : UInt8) ∉ l)
    (hf : SupForm l P H) : supParse l = .ok (linePath l) (UInt64.ofNat (hexVal 0 (lineHex l))) := by
  obtain ⟨hp, hh⟩ := hf.path_hex
  rw [supParse, supLine_of_plain hnl h0, supCheck_eq_ok_iff, hp, hh]
  exact ⟨P, H, hf, rfl, BitVec.toNat_ofNat _ _⟩

/-- A contract line passes the checks with its path and the value of its digits. -/
theorem ContractLine.supParse_eq {l : CStr} (hl : ContractLine l) :
    supParse l = .ok (linePath l) (UInt64.ofNat (hexVal 0 (lineHex l))) := by
  obtain ⟨hnl, h0, -, P, H, hf⟩ := hl
  exact supParse_of_form hnl h0 hf

theorem ContractLine.valid {l : CStr} (hl : ContractLine l) :
    chr '\n' ∉ l ∧ l.length + 1 < supReadSize ∧ (supParse l).path?.isSome :=
  ⟨hl.1, hl.2.2.1, by rw [hl.supParse_eq]; rfl⟩

section Forms

variable {L : List CStr} (hL : ∀ l ∈ L, ContractLine l)
include hL

/-- On lines that pass the checks, the table `supAssoc` reads is the contract's. -/
theorem supAssoc_of_forms :
    supAssoc L = L.map fun l => (linePath l, UInt64.ofNat (hexVal 0 (lineHex l))) := by
  induction L with
  | nil => rfl
  | cons l L ih =>
      have ih' := ih fun l' hl' => hL l' (List.mem_cons_of_mem _ hl')
      unfold supAssoc at ih' ⊢
      rw [List.map_cons, List.filterMap_cons, (hL l (List.mem_cons_self _ _)).supParse_eq, ih']
      rfl

omit hL in
theorem lookup_eq_fileDev (L : List CStr) (d : CStr) :
    (L.map fun l => (linePath l, UInt64.ofNat (hexVal 0 (lineHex l)))).lookup d = fileDev L d := by
  induction L with
  | nil => rfl
  | cons l L ih =>
      by_cases h : linePath l = d
      · simp [fileDev, List.lookup_cons, List.find?_cons, h]
      · have h' : (d == linePath l) = false := by simpa using Ne.symm h
        have h'' : (linePath l == d) = false := by simpa using h
        simp only [List.map_cons, List.lookup_cons, h', h'', ih, fileDev, List.find?_cons]

theorem supAnswer_of_forms : supAnswer (supAssoc L) = fileAnswer L := by
  funext q
  have h : (supAssoc L).lookup q.dirName = fileDev L q.dirName := by
    rw [supAssoc_of_forms hL, lookup_eq_fileDev]
  unfold supAnswer fileAnswer
  cases hf : fileDev L q.dirName <;> simp only [h, hf]

theorem supAssoc_paths : (supAssoc L).map Prod.fst = L.map linePath := by
  rw [supAssoc_of_forms hL, List.map_map]
  rfl

end Forms

/-! ## Lines that fill the read buffer

`fgets` stores at most `supReadSize - 1` bytes of a line, so a line that with its newline does
not fit arrives in pieces, and each piece is checked as a line of its own. The lines below are
`/a 0x` followed by zeros, valid whatever their length. -/

theorem hexLoop_replicate_zero (k : Nat) (rest : CStr) :
    hexLoop (List.replicate k (chr '0') ++ rest) 0 = hexLoop rest 0 := by
  induction k with
  | zero => rfl
  | succ k ih =>
      rw [List.replicate_succ, List.cons_append, hexLoop, if_pos (by decide)]
      exact ih

theorem cView_of_no_nul {s : List UInt8} (h : (0 : UInt8) ∉ s) : cView s = s := by
  rw [cView, List.takeWhile_eq_self_iff]
  intro b hb
  simpa using fun h' : b = 0 => h (h' ▸ hb)

theorem not_mem_zero_padded (k : Nat) {c : UInt8} (h1 : c ∉ lit "/a 0x") (h2 : c ≠ chr '0') :
    c ∉ lit "/a 0x" ++ List.replicate k (chr '0') := by
  simp only [List.mem_append, List.mem_replicate]
  exact fun h => h.elim h1 fun h => h2 h.2

theorem supCheck_zero_padded (k : Nat) (rest : CStr) :
    supCheck (lit "/a 0x" ++ List.replicate k (chr '0') ++ rest) =
      if (hexLoop rest 0).2 ≠ [] then .illegalDevice else .ok (lit "/a") (hexLoop rest 0).1 := by
  have hhd : (lit "/a 0x" ++ List.replicate k (chr '0') ++ rest).head? = some (chr '/') := rfl
  have hsp : strchr (lit "/a 0x" ++ List.replicate k (chr '0') ++ rest) (chr ' ') = some 2 := rfl
  have h5 : List.drop (2 + 3) (lit "/a 0x" ++ List.replicate k (chr '0') ++ rest) =
      List.replicate k (chr '0') ++ rest := by rw [List.append_assoc]; rfl
  simp only [supCheck, hhd, hsp, h5, hexLoop_replicate_zero]
  rfl

theorem supParse_zero_padded (k : Nat) :
    supParse (lit "/a 0x" ++ List.replicate k (chr '0')) = .ok (lit "/a") 0 := by
  rw [supParse, supLine, cView_of_no_nul (not_mem_zero_padded k (by decide) (by decide)),
    strchr_eq_none (not_mem_zero_padded k (by decide) (by decide)),
    ← List.append_nil (lit "/a 0x" ++ _), supCheck_zero_padded]
  rfl

/-! ## Successive lookups -/

/-- The first call on a readable file of short valid lines with distinct paths reads it and
leaves in place, with no error, a table that answers as the file's lines do. -/
theorem getmntdev_first_call (env : SupEnv) (hmode : LookupMode env)
    (hread : env.readable = true) (hopen : env.opens = true) (herr : env.readError = false)
    (L : List CStr) (lastNl : Bool) (hfile : env.content = supFile L lastNl) (hne : L ≠ [])
    (hlines : ∀ l ∈ L, chr '\n' ∉ l ∧ l.length + 1 < supReadSize ∧ (supParse l).path?.isSome)
    (hdist : ((supAssoc L).map Prod.fst).Nodup) (q : SupQuery) :
    ∃ o A, getmntdev env SupState.init q.dirName q.dirName.length q.sb q.ss = .ok o ∧
      Holds o.state A ∧ o.state.mountSupError = false ∧ o.state.msHash ≠ none ∧
      supAnswer (A.map fun e => (e.dirName, e.dev)) = supAnswer (supAssoc L) ∧
      o.answer = supAnswer (supAssoc L) q := by
  have hne' : ∀ l ∈ L, chr '\n' ∉ l ∧ l ≠ [] ∧ l.length + 1 < supReadSize := fun l hl => by
    obtain ⟨h1, h2, h3⟩ := hlines l hl
    refine ⟨h1, ?_, h2⟩
    rintro rfl
    simp [supParse, supLine, cView, strchr, supCheck, SupLine.path?] at h3
  have hmap := fgetsRecords_supFile lastNl L hne'
  set rs := fgetsRecords supReadSize [] (supFile L lastNl)
  have hassoc : supAssoc rs = supAssoc L := by rw [supAssoc, hmap, supAssoc]
  have hok : ∀ r ∈ rs, (supParse r).path?.isSome := fun r hr => by
    obtain ⟨l, hl, he⟩ := List.mem_map.mp (hmap ▸ List.mem_map_of_mem supParse hr)
    exact he ▸ (hlines l hl).2.2
  have hrs : rs ≠ [] := fun h => hne (List.map_eq_nil_iff.mp (by rw [← hmap, h]; rfl))
  obtain ⟨st, A, hloop, herr1, hsome, hA, hA'⟩ :=
    buildLoop_fresh hmode.alloc_ok q.dirName.length rs 0 SupState.init []
      hok (hassoc ▸ hdist) (by simp) ⟨by simp, rfl⟩
  rw [List.append_nil] at hA
  replace herr1 : st.mountSupError = false := herr1
  have hsome1 := hsome (.inr hrs)
  have hT : supAnswer (A.map fun e => (e.dirName, e.dev)) = supAnswer (supAssoc L) := by
    rw [hA', hassoc]
    exact funext (supAnswer_reverse hdist)
  have hbuild : buildTable env q.dirName.length SupState.init = .next st := by
    rw [buildTable, hfile, if_neg (by simp [hmode.mntSup_eq, hmode.path_set]),
      if_neg (by simp [hread]), if_neg (by simp [hopen])]
    simp only [hloop, herr, herr1, Bool.false_eq_true, if_false]
  obtain ⟨o, ho, hans, hst⟩ := getmntdev_holds env hA herr1 hsome1 q
  subst hst
  exact ⟨o, A, by rw [getmntdev_built env rfl rfl hbuild herr1 hsome1, ho], hA, herr1, hsome1,
    hT, hans.trans (congrFun hT q)⟩

/-- Two lines for `/bb` with different devices. The duplicate test compares entry lengths with
the length of the directory being looked up, so whether the conflict is seen depends on the
first call: after a first lookup of `/cc` (length 3) every call returns `0`, after one of `/a`
both lines are kept and `/bb` is answered with the later line's device. -/
theorem getmntdev_duplicate_first_query :
    runGetmntdev ⟨2, some (lit "/etc/lsof.sup"), true, true, lit "/bb 0x1\n/bb 0x2\n", false,
        fun _ => true⟩ SupState.init
      [⟨lit "/cc", Stat.zero, StatBits.none⟩, ⟨lit "/bb", Stat.zero, StatBits.none⟩] =
      .ok [(0, Stat.zero, StatBits.none), (0, Stat.zero, StatBits.none)] ∧
    runGetmntdev ⟨2, some (lit "/etc/lsof.sup"), true, true, lit "/bb 0x1\n/bb 0x2\n", false,
        fun _ => true⟩ SupState.init
      [⟨lit "/a", Stat.zero, StatBits.none⟩, ⟨lit "/bb", Stat.zero, StatBits.none⟩] =
      .ok [(0, Stat.zero, StatBits.none), (1, ⟨2, 0, 0, 0⟩, ⟨true, false, false, false⟩)] :=
  ⟨rfl, rfl⟩

/-! ## Files that fail a check -/

/-- The first call on a file that cannot be read, or one of whose `fgets` records fails a check,
returns `0` with the buffers untouched and leaves the error flag set. -/
theorem getmntdev_defect_first (env : SupEnv) (hmode : LookupMode env)
    (hdef : env.readable = false ∨ env.opens = false ∨ env.readError = true ∨
      ∃ r ∈ fgetsRecords supReadSize [] env.content, (supParse r).path? = none)
    (d : CStr) (len : Nat) (s : Stat) (ss : StatBits) :
    ∃ st, getmntdev env SupState.init d len s ss = .ok ⟨0, s, ss, st⟩ ∧
      st.mountSupError = true := by
  have hfirst : ∃ st, buildTable env len SupState.init = .exit st ∧ st.mountSupError = true := by
    obtain ⟨st, hloop, hflag⟩ := buildLoop_next hmode.alloc_ok len
      (fgetsRecords supReadSize [] env.content) 0 SupState.init
    unfold buildTable
    rw [if_neg (by simp [hmode.mntSup_eq, hmode.path_set])]
    by_cases hr : env.readable = false
    · exact ⟨{ SupState.init with mountSupError := true }, by simp [hr], rfl⟩
    by_cases ho : env.opens = false
    · exact ⟨{ SupState.init with mountSupError := true }, by simp [hr, ho], rfl⟩
    simp only [Bool.not_eq_false] at hr ho
    simp only [hr, ho, Bool.not_true, Bool.false_eq_true, if_false, hloop]
    by_cases he : env.readError = true
    · exact ⟨{ st with mountSupError := true, msHash := none }, by simp [he], rfl⟩
    · have hst : st.mountSupError = true := hflag (.inr (by simpa [hr, ho, he] using hdef))
      exact ⟨{ st with msHash := none }, by simp [he, hst], hst⟩
  obtain ⟨st, hb, herr⟩ := hfirst
  refine ⟨st, ?_, herr⟩
  rw [getmntdev, if_neg (show ¬SupState.init.mountSupError = true by decide),
    if_pos (show SupState.init.msHash.isNone = true from rfl), hb]

/-- Fail-closed. A supplement file that cannot be read, or one of whose `fgets` records
fails a check: every call, the first included, returns `0` with the buffers untouched. -/
theorem getmntdev_fail_closed (env : SupEnv) (hmode : LookupMode env)
    (hdef : env.readable = false ∨ env.opens = false ∨ env.readError = true ∨
      ∃ r ∈ fgetsRecords supReadSize [] env.content, (supParse r).path? = none)
    (qs : List SupQuery) :
    runGetmntdev env SupState.init qs = .ok (qs.map fun q => (0, q.sb, q.ss)) := by
  cases qs with
  | nil => rfl
  | cons q qs =>
      obtain ⟨st, hcall, herr⟩ :=
        getmntdev_defect_first env hmode hdef q.dirName q.dirName.length q.sb q.ss
      rw [runGetmntdev, hcall]
      show (List.cons (0, q.sb, q.ss) <$> runGetmntdev env st qs) = _
      rw [runGetmntdev_error env herr qs]
      rfl

theorem getmntdev_fail_closed_bad_line :
    LookupMode ⟨2, some (lit "/etc/lsof.sup"), true, true, lit "/a 0x1\nb 0x2\n", false,
        fun _ => true⟩ ∧
      (true = false ∨ true = false ∨ false = true ∨
        ∃ r ∈ fgetsRecords supReadSize [] (lit "/a 0x1\nb 0x2\n"), (supParse r).path? = none) ∧
      runGetmntdev ⟨2, some (lit "/etc/lsof.sup"), true, true, lit "/a 0x1\nb 0x2\n", false,
          fun _ => true⟩ SupState.init [⟨lit "/a", Stat.zero, StatBits.none⟩] =
        .ok ([(⟨lit "/a", Stat.zero, StatBits.none⟩ : SupQuery)].map fun q => (0, q.sb, q.ss)) :=
  ⟨⟨rfl, by decide, fun _ => rfl⟩, by decide,
    getmntdev_fail_closed ⟨2, some (lit "/etc/lsof.sup"), true, true, lit "/a 0x1\nb 0x2\n",
      false, fun _ => true⟩ ⟨rfl, by decide, fun _ => rfl⟩ (by decide)
      [⟨lit "/a", Stat.zero, StatBits.none⟩]⟩

/-- The line `/a 0x0…0/b 0x1`, its hex part `0…0/b` invalid, fails the hex check; once its
zeros fill the buffer it is two valid records, and a lookup of `/b` returns `1`. -/
theorem getmntdev_long_line :
    supCheck (lit "/a 0x" ++ List.replicate 8186 (chr '0') ++ lit "/b 0x1") = .illegalDevice ∧
      runGetmntdev ⟨2, some (lit "/etc/lsof.sup"), true, true,
          lit "/a 0x" ++ List.replicate 8186 (chr '0') ++ lit "/b 0x1\n", false, fun _ => true⟩
        SupState.init [⟨lit "/b", Stat.zero, StatBits.none⟩] =
        .ok [(1, ⟨1, 0, 0, 0⟩, ⟨true, false, false, false⟩)] := by
  refine ⟨by rw [supCheck_zero_padded]; rfl, ?_⟩
  -- the first record is the line's first `supReadSize - 1` bytes, a valid line of its own
  have hlen : (lit "/a 0x" ++ List.replicate 8186 (chr '0')).length = supReadSize - 1 := by
    rw [List.length_append, List.length_replicate]; rfl
  have hrec := fgetsRecords_long supReadSize (not_mem_zero_padded 8186 (by decide) (by decide))
    hlen (List.ne_nil_of_length_pos (by rw [hlen]; decide)) (lit "/b 0x1\n")
  -- stated for any first record, so that the kernel never unfolds the padding
  have hrun : ∀ L : CStr, fgetsRecords supReadSize [] (L ++ lit "/b 0x1\n") =
      L :: fgetsRecords supReadSize [] (lit "/b 0x1\n") → supParse L = .ok (lit "/a") 0 →
      runGetmntdev ⟨2, some (lit "/etc/lsof.sup"), true, true, L ++ lit "/b 0x1\n", false,
        fun _ => true⟩ SupState.init [⟨lit "/b", Stat.zero, StatBits.none⟩] =
        .ok [(1, ⟨1, 0, 0, 0⟩, ⟨true, false, false, false⟩)] := fun L hrec hp => by
    simp only [runGetmntdev, getmntdev, buildTable, hrec, buildLoop, buildStep, hp]
    rfl
  exact hrun _ hrec (supParse_zero_padded 8186)

/-! ## An empty file and a failed allocation -/

/-- A readable empty file: the loop reads no line, so neither the error flag nor `MSHash` is
set, and the lookup reads a bucket of the `NULL` table. -/
theorem getmntdev_empty_file (env : SupEnv) (hmode : LookupMode env)
    (hread : env.readable = true) (hopen : env.opens = true) (herr : env.readError = false)
    (hempty : env.content = []) (q : SupQuery) :
    getmntdev env SupState.init q.dirName q.dirName.length q.sb q.ss = .error .nullDeref := by
  rw [getmntdev, if_neg (show ¬SupState.init.mountSupError = true by decide),
    if_pos (show SupState.init.msHash.isNone = true from rfl), buildTable,
    if_neg (by simp [hmode.mntSup_eq, hmode.path_set]), if_neg (by simp [hread]),
    if_neg (by simp [hopen]), hempty]
  simp [fgetsRecords, buildLoop, herr, SupState.init]

theorem getmntdev_empty_file_at_root :
    LookupMode ⟨2, some (lit "/etc/lsof.sup"), true, true, [], false, fun _ => true⟩ ∧
      getmntdev ⟨2, some (lit "/etc/lsof.sup"), true, true, [], false, fun _ => true⟩
        SupState.init (lit "/") (lit "/").length Stat.zero StatBits.none = .error .nullDeref :=
  ⟨⟨rfl, by decide, fun _ => rfl⟩,
    getmntdev_empty_file ⟨2, some (lit "/etc/lsof.sup"), true, true, [], false, fun _ => true⟩
      ⟨rfl, by decide, fun _ => rfl⟩ rfl rfl rfl rfl ⟨lit "/", Stat.zero, StatBits.none⟩⟩

/-- The allocator fails on its fourth request, the first `malloc` for the file's second line.
The first call returns `0` with the table of the first line in place, and later calls answer
from it: `/a` is found, `/b` is not. -/
theorem getmntdev_partial_table :
    runGetmntdev ⟨2, some (lit "/etc/lsof.sup"), true, true, lit "/a 0x1\n/b 0x2\n", false,
        fun n => n != 3⟩ SupState.init
      [⟨lit "/z", Stat.zero, StatBits.none⟩, ⟨lit "/a", Stat.zero, StatBits.none⟩,
        ⟨lit "/b", Stat.zero, StatBits.none⟩] =
      .ok [(0, Stat.zero, StatBits.none), (1, ⟨1, 0, 0, 0⟩, ⟨true, false, false, false⟩),
        (0, Stat.zero, StatBits.none)] :=
  rfl

end LsofMount.Supplement
