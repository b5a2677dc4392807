import LsofMount.Readmnt.Refine

/-!
# Which records the `stat` step keeps

Lines 575-623 take `ds` and `sb` from `statsafely` when the directory is not exempt from
`stat`. When `stat` failed or was not called, the `HASMNTSUP` build asks the mount
supplement if `MntSup` is 2 and a supplement file is named: `ds` is then `SB_DEV` when
`getmntdev` found the directory and 0 when it did not, and the record is kept either way.
Without the supplement, a record whose `stat` failed is dropped unless the `-e` list exempts
its directory from `stat`.

## What this module proves

- `statResult_eq_none_iff`: the `stat` step drops a record exactly when the supplement is
  off, the directory is not exempt, and `stat` failed.
- `lineEntry_kept`: a kept record's `stat` succeeded, or its directory is exempt, or the
  supplement is on.
- `readmnt_dirs_iff`: the directories of the table a completed pass returns are exactly those
  of the records that reach the duplicate search with their `stat` succeeding, their directory
  exempt, or the supplement on.
- `readmnt_keeps_unstatted`: with the supplement on, a record that is not exempt, whose
  `stat` fails and which the supplement does not cover is kept by `readmnt`, with `ds = 0`
  and device 0.
-/

set_option autoImplicit false

namespace LsofMount.Readmnt

open LsofMount

theorem statResult_eq_none_iff (cfg : MntConfig) (l : MountLine) (ignstat : Bool) :
    statResult cfg l ignstat = none ↔
      ¬(cfg.mntSup = 2 ∧ cfg.mntSupP = true) ∧ ignstat = false ∧ l.statDir = none := by
  by_cases hsup : cfg.mntSup = 2 ∧ cfg.mntSupP = true <;>
    cases ignstat <;> cases h : l.statDir <;> simp [statResult, hsup, h]

/-- A record the loop keeps had its `stat` succeed, or its directory exempt from `stat`, or
the supplement on. -/
theorem lineEntry_kept {cfg : MntConfig} {l : MountLine} {s0 s1 ty : CStr} {e : MountEntry}
    (he : lineEntry cfg l = some e) (hhead : lineHead l = some (s0, s1, ty)) :
    (l.statDir ≠ none ∧ (efsysFlags cfg.efsysl (cView s1)).2 = false) ∨
      (efsysFlags cfg.efsysl (cView s1)).2 = true ∨ (cfg.mntSup = 2 ∧ cfg.mntSupP = true) := by
  have hsr : statResult cfg l (efsysFlags cfg.efsysl (cView s1)).2 ≠ none := fun hn => by
    rw [lineEntry_of_head hhead (lineEntry_dir he), hn] at he
    cases he
  rw [Ne, statResult_eq_none_iff] at hsr
  by_cases hsup : cfg.mntSup = 2 ∧ cfg.mntSupP = true
  · exact .inr (.inr hsup)
  · cases hig : (efsysFlags cfg.efsysl (cView s1)).2
    · exact .inl ⟨fun hs => hsr ⟨hsup, hig, hs⟩, rfl⟩
    · exact .inr (.inl rfl)

/-- A directory is in the table a completed pass returns exactly when a record for it passes
the checks up to the duplicate search and its `stat` succeeded, or the `-e` list exempts its
directory from `stat`, or the mount supplement is on. -/
theorem readmnt_dirs_iff {cfg : MntConfig} {src : MountSource} {st st' : MntState}
    {r : Option Ptr} (hlmi : st.lmi = none) (hst : st.lmist = false) (hwf : st.heap.WF)
    (hopen : src.opens = true)
    (halloc : ∀ l ∈ src.lines, l.mntAlloc = true ∧ l.cpyAlloc = true)
    (hhit : lastHit cfg src.lines = false) (h : readmnt cfg src st = .ok (r, st')) :
    ∃ T, readTable st'.heap st'.heap.top r = .ok T ∧ ∀ d, d ∈ T.map (·.dir) ↔
      ∃ l ∈ src.lines, ∃ s0 s1 ty, lineHead l = some (s0, s1, ty) ∧ lineDir cfg l = some d ∧
        (l.statDir ≠ none ∨ (efsysFlags cfg.efsysl (cView s1)).2 = true ∨
          (cfg.mntSup = 2 ∧ cfg.mntSupP = true)) := by
  obtain ⟨-, -, hT⟩ := readmnt_refines hlmi hst hwf hopen halloc hhit h
  refine ⟨_, hT, fun d => (mem_specTable_dirs cfg _ d).trans ⟨?_, ?_⟩⟩
  · rintro ⟨l, hl, e, he, rfl⟩
    have hd := lineEntry_dir he
    obtain ⟨⟨s0, s1, ty⟩, hh⟩ : ∃ r, lineHead l = some r := by
      cases hh : lineHead l with
      | none => simp [lineDir, hh] at hd
      | some r => exact ⟨r, rfl⟩
    refine ⟨l, hl, s0, s1, ty, hh, hd, ?_⟩
    rcases lineEntry_kept he hh with hk | hk | hk
    · exact .inl hk.1
    · exact .inr (.inl hk)
    · exact .inr (.inr hk)
  · rintro ⟨l, hl, s0, s1, ty, hh, hd, hk⟩
    have hsr : statResult cfg l (efsysFlags cfg.efsysl (cView s1)).2 ≠ none := by
      rw [Ne, statResult_eq_none_iff]
      rintro ⟨hsup, hig, hs⟩
      rcases hk with hk | hk | hk
      · exact hk hs
      · exact Bool.false_ne_true (hig.symm.trans hk)
      · exact hsup hk
    obtain ⟨x, hx⟩ := Option.ne_none_iff_exists'.mp hsr
    exact ⟨l, hl, _, by rw [lineEntry_of_head hh hd, hx]; rfl, rfl⟩

/-- With the supplement on, a record whose directory is not exempt, whose `stat` fails and
which the supplement does not cover is kept: when it is the only record for its directory,
the table `readmnt` returns holds its entry, with `ds = 0` and device 0. -/
theorem readmnt_keeps_unstatted {cfg : MntConfig} {src : MountSource} {st st' : MntState}
    {r : Option Ptr} (hlmi : st.lmi = none) (hst : st.lmist = false) (hwf : st.heap.WF)
    (hopen : src.opens = true)
    (halloc : ∀ l ∈ src.lines, l.mntAlloc = true ∧ l.cpyAlloc = true)
    (hhit : lastHit cfg src.lines = false) (h : readmnt cfg src st = .ok (r, st'))
    (hsup : cfg.mntSup = 2 ∧ cfg.mntSupP = true) {l : MountLine} {s0 s1 ty d : CStr}
    (hl : l ∈ src.lines) (hhead : lineHead l = some (s0, s1, ty)) (hd : lineDir cfg l = some d)
    (hex : (efsysFlags cfg.efsysl (cView s1)).2 = false) (hstat : l.statDir = none)
    (hdev : l.supDev = none) (honly : ∀ l' ∈ src.lines, lineDir cfg l' = some d → l' = l) :
    ∃ T, readTable st'.heap st'.heap.top r = .ok T ∧
      ∃ e ∈ T, e.dir = d ∧ e.ds = StatBits.none ∧ e.dev = 0 := by
  obtain ⟨-, -, hT⟩ := readmnt_refines hlmi hst hwf hopen halloc hhit h
  refine ⟨_, hT, ?_⟩
  have hsr : statResult cfg l false = some (StatBits.none, Stat.zero) := by
    simp [statResult, hstat, hsup, hdev]
  have he := lineEntry_of_head hhead hd
  rw [hex, hsr, Option.map_some'] at he
  -- the table's entry for `d` comes from a record for `d`, which is `l`
  obtain ⟨x, hx, hxd⟩ := List.mem_map.mp ((mem_specTable_dirs cfg _ d).mpr ⟨l, hl, _, he, rfl⟩)
  obtain ⟨⟨l', hl', hx'⟩, -⟩ := specTable_entry_wf cfg _ hx
  obtain rfl := honly l' hl' (hxd ▸ lineEntry_dir hx')
  obtain rfl := Option.some.inj (hx'.symm.trans he)
  exact ⟨_, hx, hxd, rfl, rfl⟩

/-- A mount table of one record, for `/x`, whose `stat` fails and which the supplement does
not cover. -/
def unstattedX : MountSource :=
  ⟨true,
    [⟨some (lit "/dev/sda1", lit "/x", lit "ext4"), true, fun _ => true, true, fun _ => true,
      .link (lit "/x"), none, none, true, true, .link (lit "/dev/sda1"), none⟩]⟩

/-- With `MntSup = 2` and a supplement file, `readmnt` keeps `/x` with `ds = 0`. -/
theorem readmnt_keeps_unstatted_x :
    ∃ r st', readmnt ⟨[], 2, true⟩ unstattedX MntState.init = .ok (r, st') ∧
      ∃ T, readTable st'.heap st'.heap.top r = .ok T ∧
        ∃ e ∈ T, e.dir = lit "/x" ∧ e.ds = StatBits.none ∧ e.dev = 0 :=
  ⟨_, _, rfl, @readmnt_keeps_unstatted ⟨[], 2, true⟩ unstattedX MntState.init _ _ rfl rfl
    Heap.WF.empty rfl (by decide) (by decide) rfl ⟨rfl, rfl⟩ _ _ _ _ _
    (List.mem_singleton_self _) rfl rfl rfl rfl rfl fun _ hl' _ => List.mem_singleton.mp hl'⟩

/-- The pass over the record for `/x`, with the supplement on, keeps `/x` although its `stat`
fails. -/
theorem readmnt_dirs_iff_x :
    ∃ r st', MntState.init.lmi = none ∧ MntState.init.lmist = false ∧ MntState.init.heap.WF ∧
      unstattedX.opens = true ∧
      (∀ l ∈ unstattedX.lines, l.mntAlloc = true ∧ l.cpyAlloc = true) ∧
      lastHit ⟨[], 2, true⟩ unstattedX.lines = false ∧
      readmnt ⟨[], 2, true⟩ unstattedX MntState.init = .ok (r, st') ∧
      ∃ T, readTable st'.heap st'.heap.top r = .ok T ∧ ∀ d, d ∈ T.map (·.dir) ↔
        ∃ l ∈ unstattedX.lines, ∃ s0 s1 ty, lineHead l = some (s0, s1, ty) ∧
          lineDir ⟨[], 2, true⟩ l = some d ∧
          (l.statDir ≠ none ∨
            (efsysFlags (⟨[], 2, true⟩ : MntConfig).efsysl (cView s1)).2 = true ∨
            ((⟨[], 2, true⟩ : MntConfig).mntSup = 2 ∧ (⟨[], 2, true⟩ : MntConfig).mntSupP = true)) :=
  ⟨_, _, rfl, rfl, Heap.WF.empty, rfl, by decide, by decide, rfl,
    @readmnt_dirs_iff ⟨[], 2, true⟩ unstattedX MntState.init _ _ rfl rfl Heap.WF.empty rfl
      (by decide) (by decide) rfl⟩

end LsofMount.Readmnt
