import LsofMount.Readmnt.Table
import Mathlib.Data.List.Dedup

/-!
# What the mount table holds

`specTable` adds the entries of the records that pass every check (`acceptedEntries`) one by
one with `addEntry` (`specTable_eq`). Over any list of entries so added:
- the directories are those of the accepted records, most recent first by the first accepted
  record for each (`specTable_dirs`), so they are pairwise distinct (`specTable_nodup`) and
  there is one for each accepted directory (`mem_specTable_dirs`);
- every entry is an accepted record's, so its directory is absolute and `dirl` is its length
  (`specTable_entry_wf`);
- the entry for a directory other than `/` is the first accepted record's for it, and the entry
  for `/` is the first accepted NFS record's for `/` when there is one, the first accepted
  record's for `/` otherwise (`specTable_find`).

The description is of the records alone and says nothing of the store; `readmnt_refines`
connects it to the chain that `readmnt` builds.
-/

set_option autoImplicit false

namespace LsofMount.Readmnt

open LsofMount

/-- The entries of the records that pass every check, in order. -/
def acceptedEntries (cfg : MntConfig) (ls : List MountLine) : List MountEntry :=
  ls.filterMap (lineEntry cfg)

theorem specTable_eq (cfg : MntConfig) (ls : List MountLine) :
    specTable cfg ls = (acceptedEntries cfg ls).foldl addEntry [] := by
  suffices h : ∀ acc : List MountEntry × Bool,
      (ls.foldl (specStep cfg) acc).1 = (ls.filterMap (lineEntry cfg)).foldl addEntry acc.1 from
    h ([], false)
  induction ls with
  | nil => intro acc; rfl
  | cons l ls ih =>
      intro acc
      rw [List.foldl_cons, ih, List.filterMap_cons]
      cases h : lineEntry cfg l <;> simp [specStep, h]

/-! ## One entry added -/

section Add

variable {T : List MountEntry} {e : MountEntry}

/-- Replacing the entry for `e`'s directory keeps every directory. -/
theorem replace_dirs (T : List MountEntry) (e : MountEntry) :
    (T.map fun x => if x.dir = e.dir then e else x).map (·.dir) = T.map (·.dir) := by
  rw [List.map_map]
  refine List.map_congr_left fun x _ => ?_
  simp only [Function.comp]
  split
  · next h => exact h.symm
  · rfl

theorem addEntry_dirs (T : List MountEntry) (e : MountEntry) :
    (addEntry T e).map (·.dir) =
      if e.dir ∈ T.map (·.dir) then T.map (·.dir) else e.dir :: T.map (·.dir) := by
  cases hf : T.find? (·.dir == e.dir) with
  | none =>
      have : e.dir ∉ T.map (·.dir) := by simpa using hf
      simp [addEntry, hf, this]
  | some old =>
      have hmem : e.dir ∈ T.map (·.dir) :=
        List.mem_map.mpr ⟨old, List.mem_of_find?_eq_some hf, by simpa using List.find?_some hf⟩
      rw [if_pos hmem]
      simp only [addEntry, hf]
      split
      · exact replace_dirs T e
      · rfl

theorem mem_addEntry {x : MountEntry} (hx : x ∈ addEntry T e) : x = e ∨ x ∈ T := by
  cases hf : T.find? (·.dir == e.dir) with
  | none =>
      simp only [addEntry, hf] at hx
      exact List.mem_cons.mp hx
  | some old =>
      simp only [addEntry, hf] at hx
      split at hx
      · obtain ⟨y, hy, rfl⟩ := List.mem_map.mp hx
        split
        · exact .inl rfl
        · exact .inr hy
      · exact .inr hx

/-- Replacing the entry for `e`'s directory is not seen by a search for another. -/
theorem find_replace_of_ne (T : List MountEntry) {d : CStr} (hd : e.dir ≠ d) :
    (T.map fun x => if x.dir = e.dir then e else x).find? (·.dir == d) = T.find? (·.dir == d) := by
  induction T with
  | nil => rfl
  | cons x T ih =>
      by_cases hx : x.dir = e.dir
      · have hxd : x.dir ≠ d := hx ▸ hd
        simp [List.find?_cons, hx, hd, hxd, ih]
      · simp [List.find?_cons, hx, ih]

/-- The search for another directory does not see the added entry. -/
theorem find_addEntry_of_ne {d : CStr} (hd : e.dir ≠ d) :
    (addEntry T e).find? (·.dir == d) = T.find? (·.dir == d) := by
  cases hf : T.find? (·.dir == e.dir) with
  | none => simp [addEntry, hf, List.find?_cons, hd]
  | some old =>
      simp only [addEntry, hf]
      split
      · exact find_replace_of_ne T hd
      · rfl

/-- Replacing the entry for `e`'s directory makes `e` the one a search for it finds. -/
theorem find_replace_self {old : MountEntry} (T : List MountEntry)
    (hf : T.find? (·.dir == e.dir) = some old) :
    (T.map fun x => if x.dir = e.dir then e else x).find? (·.dir == e.dir) = some e := by
  induction T with
  | nil => cases hf
  | cons x T ih =>
      by_cases hx : x.dir = e.dir
      · simp [List.find?_cons, hx]
      · have hb : (x.dir == e.dir) = false := by simpa using hx
        rw [List.find?_cons, hb] at hf
        rw [List.map_cons, if_neg hx, List.find?_cons, hb]
        exact ih hf

end Add

/-! ## The table of a list of entries -/

/-- Among the entries `E`, the first NFS entry for `/`, else the first entry for `/`. -/
def rootChoice (E : List MountEntry) : Option MountEntry :=
  (E.find? fun x => x.dir == lit "/" && x.ty == .nfs).or (E.find? (·.dir == lit "/"))

/-- Adding an entry for a directory, from the table of the entries before it: one step of
`find_table`. -/
theorem find_table_step (E : List MountEntry) (e : MountEntry)
    (ih : (E.foldl addEntry []).find? (·.dir == e.dir) =
      if e.dir = lit "/" then rootChoice E else E.find? (·.dir == e.dir)) :
    (addEntry (E.foldl addEntry []) e).find? (·.dir == e.dir) =
      if e.dir = lit "/" then rootChoice (E ++ [e]) else (E ++ [e]).find? (·.dir == e.dir) := by
  cases hf : (E.foldl addEntry []).find? (·.dir == e.dir) with
  | none =>
      have hE := ih.symm.trans hf
      rw [addEntry_of_find_none hf]
      by_cases hr : e.dir = lit "/"
      · rw [if_pos hr] at hE ⊢
        obtain ⟨h1, h2⟩ := Option.or_eq_none.mp hE
        simp only [rootChoice, List.find?_append, h1, h2, Option.none_or, List.find?_cons,
          List.find?_nil, hr, beq_self_eq_true, Bool.true_and]
        split <;> rfl
      · rw [if_neg hr] at hE ⊢
        simp [List.find?_append, hE]
  | some old =>
      have hE := ih.symm.trans hf
      by_cases hr : e.dir = lit "/"
      · rw [if_pos hr] at hE ⊢
        by_cases hrep : old.ty ≠ .nfs ∧ e.ty = .nfs
        · -- the first NFS entry for `/` replaces a non-NFS one
          rw [addEntry_of_replace hf hr hrep.1 hrep.2, find_replace_self _ hf]
          have h1 : E.find? (fun x => x.dir == lit "/" && x.ty == .nfs) = none := by
            cases hq : E.find? (fun x => x.dir == lit "/" && x.ty == .nfs) with
            | none => rfl
            | some y =>
                simp only [rootChoice, hq, Option.or_some, Option.some.injEq] at hE
                subst hE
                have hy : y.dir = lit "/" ∧ y.ty = .nfs := by simpa using List.find?_some hq
                exact absurd hy.2 hrep.1
          simp [rootChoice, List.find?_append, h1, hr, hrep.2]
        · have hkeep : old.ty = .nfs ∨ e.ty ≠ .nfs := (not_and_or.mp hrep).imp not_not.mp id
          rw [addEntry_keep hf (.inr hkeep), hf]
          cases hq : E.find? (fun x => x.dir == lit "/" && x.ty == .nfs) with
          | some y =>
              simp only [rootChoice, hq, Option.or_some] at hE
              simp [rootChoice, List.find?_append, hq, hE]
          | none =>
              have h2 : E.find? (·.dir == lit "/") = some old := by
                simpa [rootChoice, hq] using hE
              have hold : old.ty ≠ .nfs := fun h => by
                rw [List.find?_eq_none] at hq
                exact hq old (List.mem_of_find?_eq_some h2) (by simpa [h] using List.find?_some h2)
              have hety : e.ty ≠ .nfs := fun he => hrep ⟨hold, he⟩
              simp [rootChoice, List.find?_append, hq, h2, hety]
      · rw [if_neg hr] at hE ⊢
        rw [addEntry_keep hf (.inl hr), hf]
        simp [List.find?_append, hE]

/-- The table's entry for `d` is the first entry for `d` added, except that for `/` the first
NFS entry is preferred. -/
theorem find_table (E : List MountEntry) (d : CStr) :
    (E.foldl addEntry []).find? (·.dir == d) =
      if d = lit "/" then rootChoice E else E.find? (·.dir == d) := by
  induction E using List.reverseRecOn with
  | nil => split <;> rfl
  | append_singleton E e ih =>
      rw [List.foldl_append, List.foldl_cons, List.foldl_nil]
      by_cases hd : e.dir = d
      · subst hd
        exact find_table_step E e ih
      · rw [find_addEntry_of_ne hd, ih]
        split
        · next hr =>
            subst hr
            simp [rootChoice, List.find?_append, hd]
        · simp [List.find?_append, hd]

/-- The table lists its directories most recent first, each where its first entry was added:
the directories of the entries, latest first, without repeats. -/
theorem table_dirs (E : List MountEntry) :
    (E.foldl addEntry []).map (·.dir) = ((E.map (·.dir)).reverse).dedup := by
  induction E using List.reverseRecOn with
  | nil => rfl
  | append_singleton E e ih =>
      rw [List.foldl_append, List.foldl_cons, List.foldl_nil, addEntry_dirs, ih, List.map_append,
        List.reverse_append, List.map_singleton, List.reverse_singleton, List.singleton_append]
      split
      · next h => rw [List.dedup_cons_of_mem (List.mem_dedup.mp h)]
      · next h => rw [List.dedup_cons_of_not_mem (mt List.mem_dedup.mpr h)]

theorem table_nodup (E : List MountEntry) : ((E.foldl addEntry []).map (·.dir)).Nodup := by
  rw [table_dirs]
  exact List.nodup_dedup _

theorem mem_table_dirs (E : List MountEntry) (d : CStr) :
    d ∈ (E.foldl addEntry []).map (·.dir) ↔ d ∈ E.map (·.dir) := by
  rw [table_dirs, List.mem_dedup, List.mem_reverse]

theorem mem_table {E : List MountEntry} {x : MountEntry} (hx : x ∈ E.foldl addEntry []) :
    x ∈ E := by
  induction E using List.reverseRecOn with
  | nil => cases hx
  | append_singleton E e ih =>
      rw [List.foldl_append, List.foldl_cons, List.foldl_nil] at hx
      rcases mem_addEntry hx with rfl | hx
      · exact List.mem_append_right _ (List.mem_singleton_self _)
      · exact List.mem_append_left _ (ih hx)

/-! ## The table of the records -/

section Records

variable {cfg : MntConfig} {l : MountLine}

/-- An accepted record's entry has an absolute directory, and `dirl` is its length. -/
theorem lineEntry_wf {e : MountEntry} (he : lineEntry cfg l = some e) :
    e.dir.head? = some (chr '/') ∧ e.dirl = e.dir.length := by
  have hd := lineEntry_dir he
  obtain ⟨⟨s0, s1, ty⟩, hh⟩ : ∃ r, lineHead l = some r := by
    cases hh : lineHead l with
    | none => simp [lineDir, hh] at hd
    | some r => exact ⟨r, rfl⟩
  refine ⟨?_, ?_⟩
  · rw [lineDir_of_head hh, resolveDir] at hd
    obtain ⟨d, -, hd⟩ := Option.bind_eq_some.mp hd
    split at hd
    · cases hd
    · next h => cases hd; exact not_not.mp h
  · rw [lineEntry_of_head hh hd] at he
    obtain ⟨r, -, hr⟩ := Option.map_eq_some'.mp he
    rw [← hr]
    rfl

/-- The directories of the table are pairwise distinct. -/
theorem specTable_nodup (cfg : MntConfig) (ls : List MountLine) :
    ((specTable cfg ls).map (·.dir)).Nodup := by
  rw [specTable_eq]
  exact table_nodup _

/-- The table lists its directories most recent first by the first accepted record for each. -/
theorem specTable_dirs (cfg : MntConfig) (ls : List MountLine) :
    (specTable cfg ls).map (·.dir) = ((acceptedEntries cfg ls).map (·.dir)).reverse.dedup := by
  rw [specTable_eq]
  exact table_dirs _

/-- The table has an entry for a directory exactly when an accepted record is for it. -/
theorem mem_specTable_dirs (cfg : MntConfig) (ls : List MountLine) (d : CStr) :
    d ∈ (specTable cfg ls).map (·.dir) ↔ ∃ l ∈ ls, ∃ e, lineEntry cfg l = some e ∧ e.dir = d := by
  rw [specTable_eq, mem_table_dirs, acceptedEntries]
  simp only [List.mem_map, List.mem_filterMap]
  exact ⟨fun ⟨e, ⟨l, hl, he⟩, hd⟩ => ⟨l, hl, e, he, hd⟩, fun ⟨l, hl, e, he, hd⟩ => ⟨e, ⟨l, hl, he⟩, hd⟩⟩

/-- Every entry of the table is an accepted record's: its directory is absolute and `dirl` is
its length. -/
theorem specTable_entry_wf (cfg : MntConfig) (ls : List MountLine) {e : MountEntry}
    (he : e ∈ specTable cfg ls) :
    (∃ l ∈ ls, lineEntry cfg l = some e) ∧ e.dir.head? = some (chr '/') ∧
      e.dirl = e.dir.length := by
  rw [specTable_eq] at he
  obtain ⟨l, hl, hle⟩ := List.mem_filterMap.mp (mem_table he)
  exact ⟨⟨l, hl, hle⟩, lineEntry_wf hle⟩

/-- The entry for a directory other than `/` is the first accepted record's for it; the entry
for `/` is the first accepted NFS record's for `/`, or the first accepted record's for `/` when
no NFS record for `/` is accepted. -/
theorem specTable_find (cfg : MntConfig) (ls : List MountLine) (d : CStr) :
    (specTable cfg ls).find? (·.dir == d) =
      if d = lit "/" then rootChoice (acceptedEntries cfg ls)
      else (acceptedEntries cfg ls).find? (·.dir == d) := by
  rw [specTable_eq]
  exact find_table _ d

end Records

end LsofMount.Readmnt
