import LsofMount.Supplement.Getmntdev

/-!
# The bucket array as one table

`Represents tbl A` says the `HASHMNT` chains of `tbl` are the list `A` of entries, most
recent first, split by the bucket of each path; `Holds st A` adds that `MSHash` is `NULL`
exactly while `A` is empty and that each entry's `dir_name_len` is its path's length.
Insertion and lookup go through one bucket, and `find?_bucket` shows that searching the
bucket of a path is searching the whole table, so hash collisions are invisible.

The steps of the read loop are described once each: `allocBuckets_spec`, `findDup_fresh`,
`buildStep_fresh` (a valid line with a new path is pushed), and `buildStep_next` (with the
allocator succeeding, a step goes on and keeps or sets the error flag). The run lemmas
`buildLoop_fresh` and `buildLoop_next` follow by induction on the records.
-/

set_option autoImplicit false

namespace LsofMount.Supplement

open LsofMount

/-! ## Buckets and tables -/

/-- The chains of `tbl` are the entries of `A`, each in its path's bucket, in `A`'s order. -/
def Represents (tbl : Buckets) (A : List MntSup) : Prop :=
  ∀ i, tbl i = A.filter fun e => bucketOf e.dirName = i

/-- The supplement state holds the table `A`. -/
def Holds (st : SupState) (A : List MntSup) : Prop :=
  (∀ e ∈ A, e.dirNameLen = e.dirName.length) ∧
    match st.msHash with
    | none => A = []
    | some tbl => Represents tbl A

theorem represents_empty : Represents (fun _ => []) [] := fun _ => rfl

theorem represents_push {tbl : Buckets} {A : List MntSup} (h : Represents tbl A) (e : MntSup) :
    Represents (Function.update tbl (bucketOf e.dirName) (e :: tbl (bucketOf e.dirName)))
      (e :: A) := by
  intro i
  by_cases hi : i = bucketOf e.dirName
  · subst hi
    simp [h _]
  · rw [Function.update_noteq hi, h i, List.filter_cons_of_neg (by simpa using Ne.symm hi)]

/-- Searching the bucket of `d` for an entry that can only be `d`'s finds what searching
the whole table finds. -/
theorem find?_bucket {tbl : Buckets} {A : List MntSup} (h : Represents tbl A) (d : CStr)
    (p : MntSup → Bool) (hp : ∀ e, p e = true → e.dirName = d) :
    (tbl (bucketOf d)).find? p = A.find? p := by
  rw [h, List.find?_filter]
  congr 1
  funext e
  by_cases he : p e = true
  · simp [he, hp e he]
  · simp [he]

/-! ## One step of the read loop -/

section Step

variable {env : SupEnv} (halloc : ∀ n, env.alloc n = true)
include halloc

theorem allocBuckets_spec {st : SupState} {A : List MntSup} (hA : Holds st A) :
    ∃ tbl st', allocBuckets env st = some (tbl, st') ∧ st'.mountSupError = st.mountSupError ∧
      st'.msHash = some tbl ∧ Represents tbl A := by
  obtain ⟨-, hm⟩ := hA
  unfold allocBuckets
  cases h : st.msHash with
  | none =>
      rw [h] at hm
      subst hm
      exact ⟨fun _ => [], { st with msHash := some (fun _ => []), allocs := st.allocs + 1 },
        by simp [halloc], rfl, rfl, represents_empty⟩
  | some tbl =>
      rw [h] at hm
      exact ⟨tbl, st, rfl, rfl, h, hm⟩

theorem insertEntry_ok (tbl : Buckets) (st : SupState) (ln : Nat) (path : CStr) (dev : UInt64) :
    insertEntry env tbl st ln path dev =
      .next { st with
        msHash := some (Function.update tbl (bucketOf path)
          (⟨path, path.length, dev, ln⟩ :: tbl (bucketOf path)))
        allocs := st.allocs + 2 } := by
  simp [insertEntry, halloc]

omit halloc in
theorem findDup_fresh {tbl : Buckets} {A : List MntSup} (h : Represents tbl A) (d : Nat)
    {path : CStr} (hfresh : path ∉ A.map MntSup.dirName) : findDup tbl d path = none := by
  unfold findDup
  rw [find?_bucket h path _ (fun e he => by simp only [Bool.and_eq_true, beq_iff_eq] at he; exact he.2),
    List.find?_eq_none]
  intro e he hp
  simp only [Bool.and_eq_true, beq_iff_eq] at hp
  exact hfresh (List.mem_map.mpr ⟨e, he, hp.2⟩)

/-- A valid line whose path the table does not hold is pushed on its chain. -/
theorem buildStep_fresh (d ln : Nat) {r : List UInt8} {path : CStr} {dev : UInt64}
    (hr : supParse r = .ok path dev) {st : SupState} {A : List MntSup} (hA : Holds st A)
    (hfresh : path ∉ A.map MntSup.dirName) :
    ∃ st', buildStep env d ln r st = .next st' ∧ st'.mountSupError = st.mountSupError ∧
      st'.msHash ≠ none ∧ Holds st' (⟨path, path.length, dev, ln⟩ :: A) := by
  obtain ⟨tbl, st1, hb, herr, -, hrep⟩ := allocBuckets_spec halloc hA
  refine ⟨{ st1 with
    msHash := some (Function.update tbl (bucketOf path)
      (⟨path, path.length, dev, ln⟩ :: tbl (bucketOf path)))
    allocs := st1.allocs + 2 }, ?_, herr, by simp, ?_, ?_⟩
  · rw [buildStep, hr]
    simp only [hb, findDup_fresh hrep d hfresh, insertEntry_ok halloc]
  · intro e he
    rcases List.mem_cons.mp he with rfl | he
    · rfl
    · exact hA.1 e he
  · exact represents_push hrep ⟨path, path.length, dev, ln⟩

/-- With the allocator succeeding a step never leaves the loop; a line that fails a check
sets the error flag, and nothing clears it. -/
theorem buildStep_next (d ln : Nat) (r : List UInt8) (st : SupState) :
    ∃ st', buildStep env d ln r st = .next st' ∧
      (st.mountSupError = true → st'.mountSupError = true) ∧
      ((supParse r).path? = none → st'.mountSupError = true) := by
  unfold buildStep
  cases hr : supParse r with
  | ok path dev =>
      have hbk : ∃ tbl st1, allocBuckets env st = some (tbl, st1) ∧
          st1.mountSupError = st.mountSupError := by
        unfold allocBuckets
        cases st.msHash <;> simp [halloc] <;> exact ⟨_, _, ⟨rfl, rfl⟩, rfl⟩
      obtain ⟨tbl, st1, hb, herr⟩ := hbk
      simp only [hb]
      cases findDup tbl d path with
      | some mp =>
          refine ⟨_, rfl, fun h => ?_, fun h => by simp [SupLine.path?] at h⟩
          split <;> simp [herr, h]
      | none =>
          exact ⟨_, insertEntry_ok halloc tbl st1 ln path dev, fun h => by simpa [herr] using h,
            fun h => by simp [SupLine.path?] at h⟩
  | noPath | noDevice | illegalDevice => exact ⟨_, rfl, fun _ => rfl, fun _ => rfl⟩

end Step

/-! ## The read loop -/

/-- The path and device of a record that passes the checks. -/
def SupLine.entry? : SupLine → Option (CStr × UInt64)
  | .ok path dev => some (path, dev)
  | _ => none

/-- The table a file's records describe: the path and device of each valid record, in file
order. -/
def supAssoc (rs : List (List UInt8)) : List (CStr × UInt64) :=
  (rs.map supParse).filterMap SupLine.entry?

section Loop

variable {env : SupEnv} (halloc : ∀ n, env.alloc n = true)
include halloc

/-- With the allocator succeeding the loop reads every record, and the error flag ends set
if it was set or a record fails a check. -/
theorem buildLoop_next (d : Nat) :
    ∀ (rs : List (List UInt8)) (ln : Nat) (st : SupState),
      ∃ st', buildLoop env d rs ln st = .next st' ∧
        ((st.mountSupError = true ∨ ∃ r ∈ rs, (supParse r).path? = none) →
          st'.mountSupError = true) := by
  intro rs
  induction rs with
  | nil =>
      intro ln st
      exact ⟨st, rfl, fun h => h.elim id fun ⟨_, h, _⟩ => absurd h (List.not_mem_nil _)⟩
  | cons r rs ih =>
      intro ln st
      obtain ⟨st1, h1, hm1, hp1⟩ := buildStep_next halloc d (ln + 1) r st
      obtain ⟨st2, h2, hm2⟩ := ih (ln + 1) st1
      refine ⟨st2, by rw [buildLoop, h1]; exact h2, ?_⟩
      rintro (h | ⟨r', hr', hp⟩)
      · exact hm2 (.inl (hm1 h))
      · rcases List.mem_cons.mp hr' with rfl | hr'
        · exact hm2 (.inl (hp1 hp))
        · exact hm2 (.inr ⟨r', hr', hp⟩)

/-- Valid records with paths new to the table and to each other are all pushed: the table
grows by their entries, most recent first, and the error flag is untouched. -/
theorem buildLoop_fresh (d : Nat) :
    ∀ (rs : List (List UInt8)) (ln : Nat) (st : SupState) (A : List MntSup),
      (∀ r ∈ rs, (supParse r).path?.isSome) → ((supAssoc rs).map Prod.fst).Nodup →
      (∀ k ∈ (supAssoc rs).map Prod.fst, k ∉ A.map MntSup.dirName) → Holds st A →
      ∃ st' A', buildLoop env d rs ln st = .next st' ∧
        st'.mountSupError = st.mountSupError ∧
        ((st.msHash ≠ none ∨ rs ≠ []) → st'.msHash ≠ none) ∧
        Holds st' (A' ++ A) ∧ A'.map (fun e => (e.dirName, e.dev)) = (supAssoc rs).reverse := by
  intro rs
  induction rs with
  | nil =>
      intro ln st A _ _ _ hA
      exact ⟨st, [], rfl, rfl, fun h => h.resolve_right (by simp), hA, rfl⟩
  | cons r rs ih =>
      intro ln st A hok hnd hfr hA
      obtain ⟨path, dev, hr⟩ : ∃ path dev, supParse r = .ok path dev := by
        have := hok r (List.mem_cons_self _ _)
        revert this
        cases supParse r <;> simp [SupLine.path?]
      have hcons : supAssoc (r :: rs) = (path, dev) :: supAssoc rs := by
        simp [supAssoc, hr, SupLine.entry?]
      rw [hcons] at hnd hfr
      simp only [List.map_cons, List.nodup_cons] at hnd
      obtain ⟨st1, h1, herr1, hsome1, hA1⟩ :=
        buildStep_fresh halloc d (ln + 1) hr hA (hfr path (List.mem_cons_self _ _))
      obtain ⟨st2, A', h2, herr2, hsome2, hA2, hmap⟩ :=
        ih (ln + 1) st1 _ (fun r' hr' => hok r' (List.mem_cons_of_mem _ hr')) hnd.2
          (fun k hk hkA => by
            simp only [List.map_cons, List.mem_cons] at hkA
            rcases hkA with rfl | hkA'
            · exact hnd.1 hk
            · exact hfr k (List.mem_cons_of_mem _ hk) hkA')
          hA1
      refine ⟨st2, A' ++ [⟨path, path.length, dev, ln + 1⟩], by rw [buildLoop, h1]; exact h2,
        herr2.trans herr1, fun _ => hsome2 (.inl hsome1), by simpa using hA2, ?_⟩
      simp [hmap, hcons]

end Loop

/-! ## Lookups in a built table -/

/-- The answer the table `T` of paths and devices gives a query: found, with `*s` zeroed but
for the device and `SB_DEV` added to `*ss`, or not found with both buffers untouched. -/
def supAnswer (T : List (CStr × UInt64)) (q : SupQuery) : Int × Stat × StatBits :=
  match T.lookup q.dirName with
  | some v => (1, { Stat.zero with stDev := v }, { q.ss with dev := true })
  | none => (0, q.sb, q.ss)

/-- With distinct paths the order of a table does not matter to a lookup. -/
theorem lookup_reverse {T : List (CStr × UInt64)} (h : (T.map Prod.fst).Nodup) (d : CStr) :
    T.reverse.lookup d = T.lookup d := by
  induction T with
  | nil => rfl
  | cons p T ih =>
      obtain ⟨k, v⟩ := p
      simp only [List.map_cons, List.nodup_cons] at h
      rw [List.reverse_cons, List.lookup_append, ih h.2]
      by_cases hd : d = k
      · subst hd
        have hnone : T.lookup d = none := List.lookup_eq_none_iff.mpr fun p hp => by
          simpa using fun he : d = p.1 => h.1 (List.mem_map.mpr ⟨p, hp, he.symm⟩)
        simp [hnone]
      · have hd' : (d == k) = false := by simpa using hd
        cases hl : T.lookup d <;> simp [List.lookup_cons, hd', hl]

theorem supAnswer_reverse {T : List (CStr × UInt64)} (h : (T.map Prod.fst).Nodup) (q : SupQuery) :
    supAnswer T.reverse q = supAnswer T q := by
  simp only [supAnswer, lookup_reverse h]

theorem find?_eq_lookup (d : CStr) :
    ∀ A : List MntSup, (∀ e ∈ A, e.dirNameLen = e.dirName.length) →
      (A.find? fun mp => d.length == mp.dirNameLen && d == mp.dirName).map MntSup.dev =
        (A.map fun e => (e.dirName, e.dev)).lookup d := by
  intro A
  induction A with
  | nil => intro; rfl
  | cons e A ih =>
      intro hlen
      have he := hlen e (List.mem_cons_self _ _)
      by_cases hd : d = e.dirName
      · subst hd
        simp [List.find?_cons, List.lookup_cons, he]
      · have := ih fun e' he' => hlen e' (List.mem_cons_of_mem _ he')
        have hd' : (d == e.dirName) = false := by simpa using hd
        simp [List.find?_cons, List.lookup_cons, hd, hd', this]

/-- With a table in place and no error, a call only searches its bucket. -/
theorem getmntdev_holds (env : SupEnv) {st : SupState} {A : List MntSup} (hA : Holds st A)
    (herr : st.mountSupError = false) (hsome : st.msHash ≠ none) (q : SupQuery) :
    ∃ o, getmntdev env st q.dirName q.dirName.length q.sb q.ss = .ok o ∧
      o.answer = supAnswer (A.map fun e => (e.dirName, e.dev)) q ∧ o.state = st := by
  obtain ⟨tbl, htbl⟩ := Option.ne_none_iff_exists'.mp hsome
  have hrep : Represents tbl A := by simpa [Holds, htbl] using hA.2
  have hfind := find?_eq_lookup q.dirName A hA.1
  rw [← find?_bucket hrep q.dirName _ (fun e he => by
    simp only [Bool.and_eq_true, beq_iff_eq] at he; exact he.2.symm)] at hfind
  unfold getmntdev supAnswer
  simp only [herr, htbl, Option.isNone_some, if_false, Bool.false_eq_true]
  cases h : (tbl (bucketOf q.dirName)).find? fun mp =>
      q.dirName.length == mp.dirNameLen && q.dirName == mp.dirName with
  | none => rw [h] at hfind; simp [← hfind, SupOut.answer]
  | some mp => rw [h] at hfind; simp [← hfind, SupOut.answer]

/-- From a built table, every later call is a lookup in it, whatever the environment. -/
theorem runGetmntdev_holds (env : SupEnv) {st : SupState} {A : List MntSup} (hA : Holds st A)
    (herr : st.mountSupError = false) (hsome : st.msHash ≠ none) (qs : List SupQuery) :
    runGetmntdev env st qs = .ok (qs.map (supAnswer (A.map fun e => (e.dirName, e.dev)))) := by
  induction qs with
  | nil => rfl
  | cons q qs ih =>
      obtain ⟨o, ho, hans, hst⟩ := getmntdev_holds env hA herr hsome q
      rw [runGetmntdev, ho]
      show (List.cons o.answer <$> runGetmntdev env o.state qs) = _
      rw [hst, ih, hans]
      rfl

end LsofMount.Supplement
