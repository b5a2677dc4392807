import LsofMount.Readmnt.Blocks
import LsofMount.Readmnt.Spec
import LsofMount.Readmnt.Cache

/-!
# The read loop builds the table `specTable` describes

The blocks' lemmas compose into one lemma for the loop body (`readmntBody_spec`): from the
invariant, a record that passes every check is added to the chain as `specStep` adds its
entry to the table, and a record that is dropped leaves the chain alone. By induction over
the records, a loop that reads them all leaves a chain that holds `specStep`'s table for the
whole list (`readmntLoop_refines`).

`cleanup` then releases the pointer locals, which hold nothing of the chain, and `mp`. So a
pass of `readmnt` that completes returns a chain that reads, through the store, as
`specTable` of the records, as long as the last record to reach the duplicate search did not
match an entry (`readmnt_refines`). When it did, `mp` still points at that entry and
`CLEAN(mp)` releases it (`readmnt_releases_duplicate`). `readmnt_store` states the same with
the store invariant of the chain, for the callers that go on using the table. With the
description of `specTable` (`LsofMount.Readmnt.Spec`), the table such a pass returns has
distinct absolute directories, one per accepted directory in the order of their first
records, each with the entry `specTable_find` gives (`readmnt_table`).
-/

set_option autoImplicit false

namespace LsofMount.Readmnt

open LsofMount LsofMount.OctalEscape

variable {N : List Node}

/-- The loop body leaves what `specStep` says, whether it reaches its end or a `continue`. -/
theorem readmntBody_spec {cfg : MntConfig} {l : MountLine} {loc : Locals} {st : MntState}
    {T : List MountEntry} {hit : Bool} (hinv : LoopInv loc st N) (hT : N.map (·.2.2) = T)
    (hmp : loc.mp = none ↔ hit = false) :
    Body.Spec (readmntBody cfg l loc st) (fun r => After cfg T hit l r.1 r.2)
      (After cfg T hit l) (fun _ _ => True) := by
  unfold readmntBody
  refine .bind ((fieldsBlock_spec hinv).mono (fun _ h => h)
    (fun _ _ ⟨hi, hm, hh⟩ => After_skip hi hT (hm ▸ hmp) (by simp [lineDir, hh]))
    fun _ _ _ => trivial) fun ⟨ty, loc1, st1⟩ ⟨s0, s1, p0, p1, hhead, hinv1, hloc1, htp0, hp01,
      hm0, hm1⟩ => ?_
  dsimp only at hhead hinv1 hloc1 hm0 hm1
  subst hloc1
  refine .lift_bind fun s0' hs0' => ?_
  obtain rfl : s0' = cView s0 := Except.ok.inj (hs0'.symm.trans (Heap.readStr_of_mem hm0))
  split
  · next hauto =>
      exact .next (After_skip hinv1 hT hmp (by simp [lineDir, hhead, hauto]))
  · next hauto =>
      have hhead' : lineHead l = some (s0, s1, ty) := by rw [hhead, if_neg hauto]
      have hdn1 : ∀ q, loc.dn = some q → q < p0 := fun q hq =>
        Nat.lt_of_lt_of_le (hinv.dn q hq).1 htp0
      refine .bind ((dirBlock_spec hinv1 rfl rfl hdn1 hp01 hm0 hm1).mono (fun _ h => h)
        (fun _ _ ⟨hi, hm, hr⟩ => After_skip hi hT (hm ▸ hmp) (by rw [lineDir_of_head hhead', hr]))
        fun _ _ _ => trivial) fun ⟨d, ignrdl, ignstat, loc2, st2⟩
          ⟨hres, hef, hinv2, h20, h21, h2mp, pd, hpd, hrd, hm0'⟩ => ?_
      dsimp only at hres hef hinv2 h20 h21 h2mp hpd hrd hm0'
      have hd : lineDir cfg l = some d := (lineDir_of_head hhead').trans hres
      have hent := lineEntry_of_head hhead' hd
      rw [← hef] at hent
      dsimp only at hent
      have hfindT : ∀ e : MountEntry, e.dir = d →
          T.find? (·.dir == e.dir) = (N.find? (·.2.2.dir == d)).map (·.2.2) := by
        rintro e rfl
        rw [← hT, find_entries]
      refine .bind ((dupBlock_spec hinv2.store).mono (fun _ h => h)
        (fun loc' st' ⟨hloc', hh', hl', n, hn, hmp', hcond⟩ => After_keep
          (hinv2.congr (by rw [hloc']) (by rw [hloc']) (by rw [hloc']) (by rw [hloc']) hh' hl')
          hT hd (by simp [hmp', hn]) fun e he => ?_)
        fun _ _ _ => trivial) fun ⟨nfs, mq, loc3, st3⟩ ⟨hnfs, hmq, hloc3, hh3, hl3, hfind⟩ => ?_
      · rw [hent] at he
        obtain ⟨r, -, rfl⟩ := Option.map_eq_some'.mp he
        refine addEntry_keep (by rw [hfindT _ rfl, hn]; rfl) ?_
        rcases hcond with h | h | h
        · exact .inl h
        · exact .inr (.inl h)
        · exact .inr (.inr (by simp [h]; split <;> simp))
      dsimp only at hnfs hmq hloc3 hh3 hl3 hfind
      subst hnfs hmq
      have hinv3 : LoopInv loc3 st3 N :=
        hinv2.congr (by rw [hloc3]) (by rw [hloc3]) (by rw [hloc3]) (by rw [hloc3]) hh3 hl3
      have hmp3 : loc3.mp = none ↔ N.find? (·.2.2.dir == d) = none := by
        rcases hfind with ⟨h1, h2⟩ | ⟨n, h1, h2, -⟩ <;> simp [h1, h2]
      refine .bind (statBlock_spec.mono (fun _ h => h)
        (fun _ _ ⟨hloc', hst', hsr⟩ => hloc' ▸ hst' ▸ After_keep hinv3 hT hd hmp3 fun e he => by
          rw [hent, hsr] at he; cases he)
        fun _ _ _ => trivial) fun ⟨ds, loc4⟩ ⟨hloc4, sb, hsr, hsb⟩ => ?_
      dsimp only at hloc4 hsr hsb
      have hinv4 : LoopInv loc4 st3 N := hinv3.congr (by rw [hloc4]) (by rw [hloc4])
        (by rw [hloc4]) (by rw [hloc4]) rfl rfl
      have hmp4 : loc4.mp = loc3.mp := by rw [hloc4]
      have hE : lineEntry cfg l = some (fillEntry l d (cView s0)
          (if isNfsType ty then .nfs else if ty == lit "mqueue" then .mqueue else .reglr) ds
          loc4.sb ignrdl ignstat) := by
        rw [hent, hsr]
        rcases hsb with rfl | h
        · rfl
        · rw [h]; rfl
      have hrd3 : st3.heap.readStr (some pd) = .ok d := by rw [hh3]; exact hrd
      have hfs3 : st3.heap.readStr (some p0) = .ok (cView s0) := hh3 ▸ Heap.readStr_of_mem hm0'
      obtain ⟨hdn4, hfp04, hfp14⟩ : loc4.dn = some pd ∧ loc4.fp0 = some p0 ∧ loc4.fp1 = none := by
        rw [hloc4, hloc3]; exact ⟨hpd, h20, h21⟩
      refine (fillBlock_spec hinv4 hdn4 hfp04 hfp14 hrd3 hfs3 ?_).mono
        (fun r ⟨N', hinv', hmp', hmap⟩ => ⟨N', hinv', ?_, ?_⟩) (fun _ _ h => h.elim) fun _ _ _ => trivial
      · rw [hmp4]
        rcases hfind with h | ⟨n, hn, hq, -⟩
        · exact .inl h
        · exact .inr ⟨n, List.mem_of_find?_eq_some hn, hq, by simpa using List.find?_some hn⟩
      · rw [specStep_of_lineDir hd, hE, hmap, hmp4, hT]
        dsimp only [Option.elim]
        rcases hfind with ⟨h1, h2⟩ | ⟨n, hn, hq, hroot, hold, hnfs⟩
        · rw [if_pos h1, addEntry_of_find_none]
          exact (hfindT _ rfl).trans (by rw [h2]; rfl)
        · rw [if_neg (by simp [hq]), addEntry_of_replace ?_ hroot hold (by simp [hnfs])]
          · rfl
          · exact (hfindT _ rfl).trans (by rw [hn]; rfl)
      · rw [specStep_of_lineDir hd, hmp', hmp4, ← hT, any_entries]
        rcases hfind with ⟨h1, h2⟩ | ⟨n, hn, hq, -⟩
        · simp [h1, h2]
        · simp [hq, hn]

/-- An iteration that goes on to the next record leaves what `specStep` says. -/
theorem readmntStep_after {cfg : MntConfig} {l : MountLine} {loc loc' : Locals}
    {st st' : MntState} {T : List MountEntry} {hit : Bool} (hinv : LoopInv loc st N)
    (hT : N.map (·.2.2) = T) (hmp : loc.mp = none ↔ hit = false)
    (h : readmntStep cfg l loc st = .next loc' st') : After cfg T hit l loc' st' := by
  have hb : Body.Spec (readmntBody cfg l loc st) _ _ _ := readmntBody_spec hinv hT hmp
  unfold readmntStep at h
  split at h
  · next r hr =>
      cases h
      rw [hr] at hb
      exact hb
  · next j hj =>
      subst h
      rw [hj] at hb
      exact hb

/-- A loop that reads every record leaves a chain holding the table `specStep` builds over
them, with `mp` set exactly when the last duplicate search matched. -/
theorem readmntLoop_refines (cfg : MntConfig) (ls : List MountLine) :
    ∀ (loc : Locals) (st : MntState) (N : List Node) (T : List MountEntry) (hit : Bool)
      (loc' : Locals) (st' : MntState), LoopInv loc st N → N.map (·.2.2) = T →
      (loc.mp = none ↔ hit = false) → readmntLoop cfg ls loc st = .next loc' st' →
      ∃ N', LoopInv loc' st' N' ∧ N'.map (·.2.2) = (ls.foldl (specStep cfg) (T, hit)).1 ∧
        (loc'.mp = none ↔ (ls.foldl (specStep cfg) (T, hit)).2 = false) := by
  induction ls with
  | nil =>
      intro loc st N T hit loc' st' hinv hT hmp h
      cases h
      exact ⟨N, hinv, hT, hmp⟩
  | cons l ls ih =>
      intro loc st N T hit loc' st' hinv hT hmp h
      rw [readmntLoop] at h
      split at h
      · next loc1 st1 hstep =>
          obtain ⟨N1, hinv1, hT1, hmp1⟩ := readmntStep_after hinv hT hmp hstep
          exact ih loc1 st1 N1 _ _ loc' st' hinv1 hT1 hmp1 h
      · next j hj => exact (hj loc' st' h).elim

/-- `cleanup` with `mp` `NULL` releases only objects outside the chain. -/
theorem LoopInv.store_of_cleanup {loc : Locals} {st : MntState} {h' : Heap} (hinv : LoopInv loc st N)
    (hmp : loc.mp = none) (hc : cleanup loc st.heap = .ok h') : StoreInv h' st.lmi N := by
  unfold cleanup at hc
  obtain ⟨h1, hc1, hc⟩ := bind_eq_ok hc
  obtain ⟨h2, hc2, hc⟩ := bind_eq_ok hc
  obtain ⟨h3, hc3, hc⟩ := bind_eq_ok hc
  obtain ⟨h4, hc4, hc⟩ := bind_eq_ok hc
  rw [hmp] at hc
  cases hc
  have t1 := Heap.clean_top hc1
  have t2 := (Heap.clean_top hc2).trans t1
  have t3 := (Heap.clean_top hc3).trans t2
  exact (((hinv.store.clean hinv.dn hc1).clean (t1 ▸ hinv.fp0) hc2).clean (t2 ▸ hinv.fp1)
    hc3).clean (t3 ▸ hinv.ln) hc4

/-- A pass from a context with no table that completes, every entry allocation and name copy
succeeding and the last duplicate search missing, leaves `Lmist` set and a store in which the
chain from `Lmi` holds `specTable` of the records. -/
theorem readmnt_store {cfg : MntConfig} {src : MountSource} {st st' : MntState}
    {r : Option Ptr} (hlmi : st.lmi = none) (hst : st.lmist = false) (hwf : st.heap.WF)
    (hopen : src.opens = true)
    (halloc : ∀ l ∈ src.lines, l.mntAlloc = true ∧ l.cpyAlloc = true)
    (hhit : lastHit cfg src.lines = false) (h : readmnt cfg src st = .ok (r, st')) :
    st'.lmist = true ∧ st'.lmi = r ∧
      ∃ N, StoreInv st'.heap st'.lmi N ∧ N.map (·.2.2) = specTable cfg src.lines := by
  unfold readmnt at h
  rw [if_neg (by simp [hlmi, hst]), if_neg (by simp [hopen])] at h
  split at h
  · cases h
  · next loc1 st1 hloop =>
      have hinv0 : LoopInv Locals.init st [] :=
        ⟨⟨hwf, hlmi ▸ .nil, Nat.zero_le _, List.nodup_nil⟩, outside_none _ _, outside_none _ _,
          outside_none _ _, outside_none _ _⟩
      obtain ⟨N', hinv', hT', hmp'⟩ :=
        readmntLoop_refines cfg src.lines _ _ _ _ _ _ _ hinv0 rfl ⟨fun _ => rfl, fun _ => rfl⟩ hloop
      obtain ⟨h', hc, h⟩ := bind_eq_ok h
      cases h
      exact ⟨rfl, rfl, N', hinv'.store_of_cleanup (hmp'.mpr hhit) hc, hT'⟩
  · next loc1 st1 hloop => exact absurd hloop (readmntLoop_ne_exit cfg _ halloc _ _ _ _)

/-- Under the same conditions, the chain reads through the store as `specTable` of the
records. -/
theorem readmnt_refines {cfg : MntConfig} {src : MountSource} {st st' : MntState}
    {r : Option Ptr} (hlmi : st.lmi = none) (hst : st.lmist = false) (hwf : st.heap.WF)
    (hopen : src.opens = true)
    (halloc : ∀ l ∈ src.lines, l.mntAlloc = true ∧ l.cpyAlloc = true)
    (hhit : lastHit cfg src.lines = false) (h : readmnt cfg src st = .ok (r, st')) :
    st'.lmist = true ∧ st'.lmi = r ∧
      readTable st'.heap st'.heap.top r = .ok (specTable cfg src.lines) := by
  obtain ⟨hst', hr, N, hs, hT⟩ := readmnt_store hlmi hst hwf hopen halloc hhit h
  refine ⟨hst', hr, ?_⟩
  rw [← hr, hs.chain.readTable_eq _ hs.len, hT]

/-- The table a completed pass returns, under the conditions of `readmnt_refines`: distinct
absolute directories with their lengths, one for each directory an accepted record is for,
most recent first by the first accepted record for each; the entry for a directory other than
`/` is the first accepted record's, and the entry for `/` the first accepted NFS record's when
there is one. -/
theorem readmnt_table {cfg : MntConfig} {src : MountSource} {st st' : MntState}
    {r : Option Ptr} (hlmi : st.lmi = none) (hst : st.lmist = false) (hwf : st.heap.WF)
    (hopen : src.opens = true)
    (halloc : ∀ l ∈ src.lines, l.mntAlloc = true ∧ l.cpyAlloc = true)
    (hhit : lastHit cfg src.lines = false) (h : readmnt cfg src st = .ok (r, st')) :
    ∃ T, readTable st'.heap st'.heap.top r = .ok T ∧
      T.map (·.dir) = ((acceptedEntries cfg src.lines).map (·.dir)).reverse.dedup ∧
      (T.map (·.dir)).Nodup ∧
      (∀ e ∈ T, e.dir.head? = some (chr '/') ∧ e.dirl = e.dir.length) ∧
      (∀ d, d ∈ T.map (·.dir) ↔ ∃ l ∈ src.lines, ∃ e, lineEntry cfg l = some e ∧ e.dir = d) ∧
      ∀ d, T.find? (·.dir == d) = if d = lit "/" then rootChoice (acceptedEntries cfg src.lines)
        else (acceptedEntries cfg src.lines).find? (·.dir == d) :=
  ⟨_, (readmnt_refines hlmi hst hwf hopen halloc hhit h).2.2, specTable_dirs cfg _,
    specTable_nodup cfg _,
    fun _ he => (specTable_entry_wf cfg _ he).2, mem_specTable_dirs cfg _, specTable_find cfg _⟩

/-- The pass over `/` and `/home`, every call succeeding, meets the conditions of
`readmnt_table`. -/
theorem readmnt_table_rootHome :
    ∃ r st', MntState.init.lmi = none ∧ MntState.init.lmist = false ∧ MntState.init.heap.WF ∧
      (rootHome true).opens = true ∧
      (∀ l ∈ (rootHome true).lines, l.mntAlloc = true ∧ l.cpyAlloc = true) ∧
      lastHit ⟨[], 0, false⟩ (rootHome true).lines = false ∧
      readmnt ⟨[], 0, false⟩ (rootHome true) MntState.init = .ok (r, st') ∧
      ∃ T, readTable st'.heap st'.heap.top r = .ok T ∧
        T.map (·.dir) =
          ((acceptedEntries ⟨[], 0, false⟩ (rootHome true).lines).map (·.dir)).reverse.dedup ∧
        (T.map (·.dir)).Nodup ∧
        (∀ e ∈ T, e.dir.head? = some (chr '/') ∧ e.dirl = e.dir.length) ∧
        (∀ d, d ∈ T.map (·.dir) ↔
          ∃ l ∈ (rootHome true).lines, ∃ e, lineEntry ⟨[], 0, false⟩ l = some e ∧ e.dir = d) ∧
        ∀ d, T.find? (·.dir == d) =
          if d = lit "/" then rootChoice (acceptedEntries ⟨[], 0, false⟩ (rootHome true).lines)
          else (acceptedEntries ⟨[], 0, false⟩ (rootHome true).lines).find? (·.dir == d) :=
  ⟨_, _, rfl, rfl, Heap.WF.empty, rfl, by decide, by decide, rfl,
    @readmnt_table ⟨[], 0, false⟩ (rootHome true) MntState.init _ _ rfl rfl Heap.WF.empty rfl
      (by decide) (by decide) rfl⟩

end LsofMount.Readmnt
