import LsofMount.Readmnt.Invariant

/-!
# What each block of the loop body does to the chain

One `Body.Spec` lemma per block of `readmntBody`, each from the invariant on entry to the
block: what the block hands on (its `R`), and what holds when it leaves by `continue`.
-/

set_option autoImplicit false

namespace LsofMount.Readmnt

open LsofMount LsofMount.OctalEscape

variable {N : List Node}

/-! ## Lines 457-478: the fields -/

/-- `fp[0]` and `fp[1]` are released and take fresh copies of the converted device name and
directory; `continue` leaves the record without a head. -/
theorem fieldsBlock_spec {l : MountLine} {loc : Locals} {st : MntState}
    (hinv : LoopInv loc st N) :
    Body.Spec (fieldsBlock l loc st)
      (fun r => ∃ s0 s1 p0 p1,
        lineHead l = (if isAutomounter (cView s0) || isSkippedType r.1 then none
          else some (s0, s1, r.1)) ∧
        LoopInv r.2.1 r.2.2 N ∧ r.2.1 = { loc with fp0 := some p0, fp1 := some p1 } ∧
        st.heap.top ≤ p0 ∧ p0 < p1 ∧
        r.2.2.heap.mem p0 = some (.str s0) ∧ r.2.2.heap.mem p1 = some (.str s1))
      (fun loc' st' => LoopInv loc' st' N ∧ loc'.mp = loc.mp ∧ lineHead l = none)
      (fun _ _ => True) := by
  unfold fieldsBlock
  split
  · next f0 f1 ty hf =>
      refine .lift_bind fun h1 hc1 => .lift_bind fun h2 hc2 => ?_
      have ht : h2.top = st.heap.top := (Heap.clean_top hc2).trans (Heap.clean_top hc1)
      have hs : StoreInv h2 st.lmi N :=
        (hinv.store.clean hinv.fp0 hc1).clean (Heap.clean_top hc1 ▸ hinv.fp1) hc2
      have hdn := hinv.dn.mono (Nat.le_of_eq ht.symm)
      have hln := hinv.ln.mono (Nat.le_of_eq ht.symm)
      split
      · next s0 hs0 =>
          have hs' := hs.alloc (.str s0)
          split
          · next s1 hs1 =>
              refine .pure ⟨s0, s1, h2.top, (h2.alloc (.str s0)).2.top,
                by simp [lineHead, hf, hs0, hs1],
                ⟨hs'.alloc _, (hdn.alloc _).alloc _, (hs.outside_alloc _).alloc _,
                  hs'.outside_alloc _, (hln.alloc _).alloc _⟩, rfl, ht.ge,
                Nat.lt_succ_self _, ?_, Heap.alloc_mem_self _ _⟩
              rw [Heap.alloc_mem_of_ne _ _ (by simp), Heap.alloc_mem_self]
          · next hs1 =>
              exact .next ⟨⟨hs', hdn.alloc _, hs.outside_alloc _, outside_none _ _,
                hln.alloc _⟩, rfl,
                by simp [lineHead, hf, hs0, Option.eq_none_iff_forall_not_mem.mpr hs1]⟩
      · next hs0 =>
          exact .next ⟨⟨hs, hdn, outside_none _ _, outside_none _ _, hln⟩, rfl,
            by simp [lineHead, hf, Option.eq_none_iff_forall_not_mem.mpr hs0]⟩
  · next hf =>
      refine .next ⟨hinv, rfl, ?_⟩
      cases hl : l.fields with
      | none => simp [lineHead, hl]
      | some r => exact absurd hl (hf r.1 r.2.1 r.2.2)

/-! ## Lines 491-539: the directory -/

/-- `dn` takes over `fp[1]`, the old `dn` being released, and is resolved as `resolveDir`
says; `continue` leaves the record without a directory. -/
theorem dirBlock_spec {cfg : MntConfig} {l : MountLine} {loc : Locals} {st : MntState}
    {p0 p1 : Ptr} {s0 s1 : CStr} (hinv : LoopInv loc st N) (hfp0 : loc.fp0 = some p0)
    (hfp1 : loc.fp1 = some p1) (hdn : ∀ q, loc.dn = some q → q < p0) (hp : p0 < p1)
    (hs0 : st.heap.mem p0 = some (.str s0)) (hs1 : st.heap.mem p1 = some (.str s1)) :
    Body.Spec (dirBlock cfg l loc st)
      (fun r => resolveDir cfg l s1 = some r.1 ∧
        (r.2.1, r.2.2.1) = efsysFlags cfg.efsysl (cView s1) ∧
        LoopInv r.2.2.2.1 r.2.2.2.2 N ∧ r.2.2.2.1.fp0 = some p0 ∧ r.2.2.2.1.fp1 = none ∧
        r.2.2.2.1.mp = loc.mp ∧
        ∃ pd, r.2.2.2.1.dn = some pd ∧ r.2.2.2.2.heap.readStr (some pd) = .ok r.1 ∧
          r.2.2.2.2.heap.mem p0 = some (.str s0))
      (fun loc' st' => LoopInv loc' st' N ∧ loc'.mp = loc.mp ∧ resolveDir cfg l s1 = none)
      (fun _ _ => True) := by
  unfold dirBlock
  refine .lift_bind fun h1 hc1 => .lift_bind fun d1 hd1 => ?_
  have hne : ∀ x, x = p0 ∨ x = p1 → ∀ q, loc.dn = some q → x ≠ q := by
    rintro x (rfl | rfl) q hq rfl
    · exact Nat.lt_irrefl _ (hdn _ hq)
    · exact Nat.lt_asymm (hdn _ hq) hp
  have hm0 : h1.mem p0 = some (.str s0) :=
    (Heap.clean_mem_of_ne hc1 (hne p0 (.inl rfl))).trans hs0
  have hm1 : h1.mem p1 = some (.str s1) :=
    (Heap.clean_mem_of_ne hc1 (hne p1 (.inr rfl))).trans hs1
  have hs : StoreInv h1 st.lmi N := hinv.store.clean hinv.dn hc1
  have ht : h1.top = st.heap.top := Heap.clean_top hc1
  have hr1 : h1.readStr (some p1) = .ok (cView s1) := Heap.readStr_of_mem hm1
  have ho1 : Outside h1.top N (some p1) := ht ▸ hfp1 ▸ hinv.fp1
  have hln : Outside h1.top N loc.ln := ht ▸ hinv.ln
  obtain rfl : d1 = cView s1 := Except.ok.inj (hd1.symm.trans (hfp1 ▸ hr1))
  rcases hef : efsysFlags cfg.efsysl (cView s1) with ⟨ignrdl, ignstat⟩
  dsimp only
  refine .bind (?_ : Body.Spec _ (fun r : Locals × Heap => ∃ pd d,
      (if ignrdl then some (cView s1) else resolvePath (cView s1) l.rdDir) = some d ∧
      r.1.dn = some pd ∧ r.2.readStr (some pd) = .ok d ∧
      r.2.mem p0 = some (.str s0) ∧ StoreInv r.2 st.lmi N ∧ st.heap.top ≤ r.2.top ∧
      Outside r.2.top N r.1.dn ∧ Outside r.2.top N r.1.ln ∧ r.1.fp0 = some p0 ∧
      r.1.fp1 = none ∧ r.1.mp = loc.mp) _ _) fun ⟨loc2, h2⟩ hP => ?_
  · have hlt1 : p1 < h1.top := hs.wf.lt_top hm1
    have hlt0 : p0 < h1.top := hs.wf.lt_top hm0
    cases ignrdl
    · rw [if_neg Bool.false_ne_true]
      cases hrd : l.rdDir with
      | fail =>
          simp only [readlinkDir, hrd]
          exact .next ⟨⟨hs, hfp1 ▸ ho1, ht ▸ hinv.fp0, outside_none _ _, outside_none _ _⟩,
            rfl, by simp [resolveDir, hef, hrd, resolvePath]⟩
      | same =>
          simp only [readlinkDir, hrd]
          exact .pure ⟨p1, cView s1, by simp [resolvePath], hfp1, hr1, hm0, hs,
            ht.ge, hfp1 ▸ ho1, hfp1 ▸ ho1, hfp0, rfl, rfl⟩
      | link s =>
          simp only [readlinkDir, hrd]
          refine .lift_bind fun h' hc' => ?_
          rw [hfp1] at hc'
          have hfr : ∀ x, x ≠ p1 → h'.mem x = (h1.alloc (.str s)).2.mem x :=
            fun _ => Heap.free_mem_of_ne hc'
          refine .pure ⟨h1.top, cView s, by simp [resolvePath], rfl,
            Heap.readStr_of_mem ((hfr _ (Nat.ne_of_gt hlt1)).trans (Heap.alloc_mem_self _ _)),
            (hfr _ (Nat.ne_of_lt hp)).trans ((Heap.alloc_mem_of_ne _ _ (Nat.ne_of_lt hlt0)).trans hm0),
            (hs.alloc _).clean (ho1.alloc _) hc', ?_, Heap.clean_top hc' ▸ hs.outside_alloc _,
            outside_none _ _, hfp0, rfl, rfl⟩
          rw [Heap.clean_top hc', Heap.alloc_top, ← ht]
          exact Nat.le_succ _
    · exact .pure ⟨p1, cView s1, rfl, hfp1, hr1, hm0, hs, ht.ge, hfp1 ▸ ho1, hln, hfp0,
        rfl, rfl⟩
  · dsimp only at hP
    obtain ⟨pd, d, htgt, hpd, hrd, hm0', hs2, ht2, hodn, holn, h20, h21, h2mp⟩ := hP
    refine .lift_bind fun d2 hd2 => ?_
    obtain rfl : d2 = d := Except.ok.inj (hd2.symm.trans (hpd ▸ hrd))
    have hres := resolveDir_of_target (by rw [hef]; exact htgt)
    have hinv2 : LoopInv loc2 { st with heap := h2 } N :=
      ⟨hs2, hodn, h20 ▸ hfp0 ▸ hinv.fp0.mono ht2, h21 ▸ outside_none _ _, holn⟩
    split
    · next hsl => exact .next ⟨hinv2, h2mp, by rw [hres, if_pos hsl]⟩
    · next hsl =>
        exact .pure ⟨by rw [hres, if_neg hsl], rfl, hinv2, h20, h21, h2mp, pd, hpd, hrd, hm0'⟩

/-! ## Lines 545-573: the duplicate search -/

/-- `mp` is the first node for the directory; the record goes on only when there is none, or
when it is an NFS record for `/` whose node is not NFS. -/
theorem dupBlock_spec {ty d : CStr} {loc : Locals} {st : MntState} (hs : StoreInv st.heap st.lmi N) :
    Body.Spec (dupBlock ty d loc st)
      (fun r => r.1 = isNfsType ty ∧ r.2.1 = (ty == lit "mqueue") ∧
        r.2.2.1 = { loc with mp := r.2.2.1.mp } ∧ r.2.2.2.heap = st.heap ∧ r.2.2.2.lmi = st.lmi ∧
        ((r.2.2.1.mp = none ∧ N.find? (·.2.2.dir == d) = none) ∨
          ∃ n, N.find? (·.2.2.dir == d) = some n ∧ r.2.2.1.mp = some n.1 ∧ d = lit "/" ∧
            n.2.2.ty ≠ .nfs ∧ isNfsType ty = true))
      (fun loc' st' => loc' = { loc with mp := loc'.mp } ∧ st'.heap = st.heap ∧
        st'.lmi = st.lmi ∧ ∃ n, N.find? (·.2.2.dir == d) = some n ∧ loc'.mp = some n.1 ∧
          (d ≠ lit "/" ∨ n.2.2.ty = .nfs ∨ isNfsType ty = false))
      (fun _ _ => True) := by
  unfold dupBlock
  rw [hs.chain.findMnt_eq d _ hs.len]
  refine .lift_bind fun mp hmp => ?_
  obtain rfl := Except.ok.inj hmp
  cases hf : N.find? (·.2.2.dir == d) with
  | none => exact .pure ⟨rfl, rfl, rfl, by simp, by simp, .inl ⟨rfl, rfl⟩⟩
  | some n =>
      have hn : n ∈ N := List.mem_of_find?_eq_some hf
      have hm : st.heap.readMnt n.1 = .ok n.2.1 := Heap.readMnt_of_mem (hs.chain.mem_live hn)
      have hty : n.2.2.ty = n.2.1.ty := (nodeEntry_ok (hs.chain.entry hn).1).2.2.2.2
      dsimp only [Option.map_some']
      split
      · next hd => exact .next ⟨rfl, by simp, by simp, n, rfl, rfl, .inl hd⟩
      · next hd =>
          rw [noteNfs_heap, hm]
          refine .pure_bind ?_
          split
          · next hc =>
              refine .next ⟨rfl, by simp, by simp, n, rfl, rfl, .inr ?_⟩
              rw [hty]
              simpa using hc
          · next hc =>
              refine .pure ⟨rfl, rfl, rfl, by simp, by simp, .inr ⟨n, rfl, rfl, not_not.mp hd, ?_⟩⟩
              rw [hty]
              simpa using hc

/-! ## Lines 575-623: `stat` -/

/-- `ds` and `sb` are what `statResult` says, `sb` mattering only when some bit of `ds` is
set; `continue` drops a record `statResult` drops. -/
theorem statBlock_spec {cfg : MntConfig} {l : MountLine} {ignstat : Bool} {loc : Locals}
    {st : MntState} :
    Body.Spec (statBlock cfg l ignstat loc st)
      (fun r => r.2 = { loc with sb := r.2.sb } ∧
        ∃ sb, statResult cfg l ignstat = some (r.1, sb) ∧ (r.1 = StatBits.none ∨ r.2.sb = sb))
      (fun loc' st' => loc' = loc ∧ st' = st ∧ statResult cfg l ignstat = none)
      (fun _ _ => True) := by
  unfold statBlock
  cases hsd : (if ignstat then none else l.statDir) with
  | some sb => exact .pure ⟨rfl, sb, by simp [statResult, hsd], .inr rfl⟩
  | none =>
      by_cases hsup : cfg.mntSup = 2 ∧ cfg.mntSupP
      · rw [if_pos hsup]
        cases hdev : l.supDev with
        | some dev => exact .pure ⟨rfl, _, by simp [statResult, hsd, hsup, hdev], .inr rfl⟩
        | none => exact .pure ⟨rfl, Stat.zero, by simp [statResult, hsd, hsup, hdev], .inl rfl⟩
      · rw [if_neg hsup]
        cases ignstat
        · exact .next ⟨rfl, rfl, by simp_all [statResult]⟩
        · exact .pure ⟨rfl, Stat.zero, by simp [statResult, hsd, hsup], .inl rfl⟩

/-! ## Lines 625-731: the entry -/

/-- A new entry is a fresh id; a remembered one keeps its id and record, its strings released
and nothing else touched. -/
theorem entryBlock_spec {l : MountLine} {loc : Locals} {st : MntState} (hwf : st.heap.WF) :
    Body.Spec (entryBlock l loc st)
      (fun r => (loc.mp = none ∧ r.1 = true ∧ r.2.1 = st.heap.top ∧
          r.2.2 = (st.heap.alloc (.mnt .blank)).2) ∨
        (loc.mp = some r.2.1 ∧ r.1 = false ∧ ∃ m, st.heap.mem r.2.1 = some (.mnt m) ∧
          r.2.2.mem r.2.1 = some (.mnt { m with dir := none, fsname := none, fsnmres := none }) ∧
          r.2.2.top = st.heap.top ∧ r.2.2.WF ∧
          ∀ x, x ∉ nodeObjs r.2.1 m → r.2.2.mem x = st.heap.mem x))
      (fun _ _ => False) (fun _ _ => True) := by
  unfold entryBlock
  cases hmp : loc.mp with
  | some p =>
      refine .lift_bind fun m hm => .lift_bind fun h1 hc1 => .lift_bind fun h2 hc2 =>
        .lift_bind fun h3 hc3 => .lift_bind fun h4 hw => .pure (.inr ⟨rfl, rfl, m,
          Heap.readMnt_eq hm, Heap.writeMnt_mem_self hw, ?_, ?_, ?_⟩)
      · rw [Heap.writeMnt_top hw, Heap.clean_top hc3, Heap.clean_top hc2, Heap.clean_top hc1]
      · exact (((hwf.clean hc1).clean hc2).clean hc3).writeMnt hw
      · intro x hx
        simp only [nodeObjs, List.mem_cons, List.mem_append, not_or] at hx
        obtain ⟨hxp, ⟨hxd, hxf⟩, hxr⟩ := hx
        rw [Heap.writeMnt_mem_of_ne hw hxp, Heap.clean_mem_of_not_mem hc3 hxr,
          Heap.clean_mem_of_not_mem hc2 hxf, Heap.clean_mem_of_not_mem hc1 hxd]
  | none =>
      dsimp only
      split
      · exact .pure (.inl ⟨rfl, rfl, rfl, rfl⟩)
      · exact .exit trivial

/-- `ln` is a fresh copy of the name, or what `Readlink` answers for it; it reads as the
resolved name, and nothing below the frontier changes. -/
theorem fsnameBlock_spec {l : MountLine} {fs : CStr} {ignrdl ignstat : Bool} {loc : Locals}
    {h : Heap} {st : MntState} {p0 : Ptr} (hwf : h.WF) (hdn : loc.dn = some p0)
    (hfs : h.readStr (some p0) = .ok fs) :
    Body.Spec (fsnameBlock l fs ignrdl ignstat loc h st)
      (fun r => r.2.1 = ((ignrdl || fs.head? ≠ some (chr '/')) || ignstat) ∧ r.2.2.WF ∧
        h.top ≤ r.2.2.top ∧ (∀ x, x < h.top → r.2.2.mem x = h.mem x) ∧
        (∀ x, r.1 = some x → x = p0 ∨ h.top ≤ x) ∧
        r.2.2.readOptStr r.1 = .ok (if ignrdl || fs.head? ≠ some (chr '/') then some fs
          else resolvePath fs l.rdFs))
      (fun _ _ => False) (fun _ _ => True) := by
  have hcv : cView fs = fs := by
    simp only [Heap.readStr] at hfs
    split at hfs
    · rw [← Except.ok.inj hfs, cView_cView]
    · cases hfs
  have hframe : ∀ o, ∀ x, x < h.top → (h.alloc o).2.mem x = h.mem x :=
    fun o x hx => h.alloc_mem_of_ne o (Nat.ne_of_lt hx)
  unfold fsnameBlock
  split
  · next hc =>
      split
      · refine .pure ⟨by rw [hc]; rfl, hwf.alloc _, Nat.le_succ _, hframe _,
          by rintro x ⟨⟩; exact .inr le_rfl, ?_⟩
        simp [Heap.readOptStr, Heap.readStr, hcv]
      · exact .exit trivial
  · next hc =>
      have hc' : (ignrdl || decide (fs.head? ≠ some (chr '/'))) = false := by simpa using hc
      rw [hdn, hc']
      dsimp only
      cases hrd : l.rdFs with
      | fail => exact .pure ⟨by simp, hwf, le_rfl, fun _ _ => rfl, by rintro x ⟨⟩,
          by simp [readlink, hrd, resolvePath, Heap.readOptStr]⟩
      | same => exact .pure ⟨by simp, hwf, le_rfl, fun _ _ => rfl, by rintro x ⟨⟩; exact .inl rfl,
          by simp [readlink, hrd, resolvePath, Heap.readOptStr, hfs]⟩
      | link s => exact .pure ⟨by simp, hwf.alloc _, Nat.le_succ _, hframe _,
          by rintro x ⟨⟩; exact .inr le_rfl,
          by simp [readlink, hrd, resolvePath, Heap.readOptStr, Heap.readStr]⟩

/-- The entry is filled with the record's directory and names: a new one is linked at the head
of the chain, a remembered one is replaced in place. Either way the chain's entries are the
spec's, with `fillEntry`'s entry added. -/
theorem fillBlock_spec {l : MountLine} {d fs : CStr} {nfs mq ignrdl ignstat : Bool}
    {ds : StatBits} {loc : Locals} {st : MntState} {pd p0 : Ptr} (hinv : LoopInv loc st N)
    (hdn : loc.dn = some pd) (hfp0 : loc.fp0 = some p0) (hfp1 : loc.fp1 = none)
    (hrd : st.heap.readStr (some pd) = .ok d) (hfs : st.heap.readStr (some p0) = .ok fs)
    (hmp : (loc.mp = none ∧ N.find? (·.2.2.dir == d) = none) ∨
      ∃ n ∈ N, loc.mp = some n.1 ∧ n.2.2.dir = d) :
    Body.Spec (fillBlock l d nfs mq ignrdl ignstat ds loc st)
      (fun r => ∃ N', LoopInv r.1 r.2 N' ∧ r.1.mp = loc.mp ∧
        N'.map (·.2.2) = if loc.mp = none then
            fillEntry l d fs (if nfs then .nfs else if mq then .mqueue else .reglr) ds loc.sb
              ignrdl ignstat :: N.map (·.2.2)
          else (N.map (·.2.2)).map fun x => if x.dir = d then
            fillEntry l d fs (if nfs then .nfs else if mq then .mqueue else .reglr) ds loc.sb
              ignrdl ignstat else x)
      (fun _ _ => False) (fun _ _ => True) := by
  have hs := hinv.store
  obtain ⟨hpdt, hpdN⟩ := hinv.dn pd hdn
  obtain ⟨hp0t, hp0N⟩ := hinv.fp0 p0 hfp0
  unfold fillBlock
  refine .bind (entryBlock_spec hs.wf) fun ⟨ne, p, h1⟩ hE => ?_
  -- what the entry's store keeps
  obtain ⟨m1, hm1, hwf1, ht1, hp1, hpd1, hp01, hpdp, hp0p⟩ :
      ∃ m1, h1.mem p = some (.mnt m1) ∧ h1.WF ∧ st.heap.top ≤ h1.top ∧ p < h1.top ∧
        h1.mem pd = st.heap.mem pd ∧ h1.mem p0 = st.heap.mem p0 ∧ pd ≠ p ∧ p0 ≠ p := by
    rcases hE with ⟨-, -, rfl, rfl⟩ | ⟨hq, -, m, hm, hm', ht', hwf', hfr⟩
    · exact ⟨_, Heap.alloc_mem_self _ _, hs.wf.alloc _, Nat.le_succ _, Nat.lt_succ_self _,
        st.heap.alloc_mem_of_ne _ (Nat.ne_of_lt hpdt), st.heap.alloc_mem_of_ne _ (Nat.ne_of_lt hp0t),
        Nat.ne_of_lt hpdt, Nat.ne_of_lt hp0t⟩
    · obtain ⟨n, hn, hqn, -⟩ := hmp.resolve_left fun h => by simp [h.1] at hq
      obtain rfl : p = n.1 := Option.some.inj (hq.symm.trans hqn)
      obtain rfl : m = n.2.1 := Obj.mnt.inj (Option.some.inj (hm.symm.trans (hs.chain.mem_live hn)))
      have hsub := nodeObjs_subset hn
      exact ⟨_, hm', hwf', ht'.ge, ht' ▸ hs.wf.lt_top hm, hfr pd fun h => hpdN (hsub pd h),
        hfr p0 fun h => hp0N (hsub p0 h), fun h => hpdN (h ▸ hsub _ (mem_nodeObjs_self _ _)),
        fun h => hp0N (h ▸ hsub _ (mem_nodeObjs_self _ _))⟩
  refine .lift_bind fun m1' hm1' => ?_
  obtain rfl : m1' = m1 := Except.ok.inj (hm1'.symm.trans (Heap.readMnt_of_mem hm1))
  refine .lift_bind fun h2 hw2 => .lift_bind fun fs' hfs' => ?_
  have ht2 : h2.top = h1.top := Heap.writeMnt_top hw2
  have hfs2 : h2.readStr (some p0) = .ok fs := by
    rw [Heap.readStr_congr ((Heap.writeMnt_mem_of_ne hw2 hp0p).trans hp01), hfs]
  obtain rfl : fs = fs' := Except.ok.inj ((hfp0 ▸ hfs2).symm.trans hfs')
  refine .bind (fsnameBlock_spec (hwf1.writeMnt hw2) hfp0 hfs2) fun ⟨ln, ig, h3⟩ hF => ?_
  obtain ⟨hig, hwf3, ht3, hfr3, hln3, hr3⟩ := hF
  refine .lift_bind fun h4 hw4 => ?_
  obtain ⟨mf, hmf, hw4⟩ : ∃ mf, mf = _ ∧ h3.writeMnt p mf = .ok h4 := ⟨_, rfl, hw4⟩
  have hfr4 : ∀ x, x ≠ p → x < h1.top → h4.mem x = h1.mem x := fun x hxp hxt => by
    rw [Heap.writeMnt_mem_of_ne hw4 hxp, hfr3 x (ht2 ▸ hxt), Heap.writeMnt_mem_of_ne hw2 hxp]
  have hlnp : ∀ x ∈ ln.toList, x ≠ p ∧ (x = p0 ∨ h1.top ≤ x) := by
    intro x hx
    rcases hln3 x (by simpa using hx) with rfl | hx'
    · exact ⟨hp0p, .inl rfl⟩
    · exact ⟨Nat.ne_of_gt (Nat.lt_of_lt_of_le hp1 (ht2 ▸ hx')), .inr (ht2 ▸ hx')⟩
  -- the written entry reads back as the spec's
  have hent : nodeEntry h4 mf = .ok (fillEntry l d fs
      (if nfs then .nfs else if mq then .mqueue else .reglr) ds loc.sb ignrdl ignstat) := by
    have hd4 : h4.readStr mf.dir = .ok d := by
      rw [hmf, ← hrd, show loc.dn = some pd from hdn]
      exact Heap.readStr_congr ((hfr4 pd hpdp (Nat.lt_of_lt_of_le hpdt ht1)).trans hpd1)
    have hf4 : h4.readStr mf.fsname = .ok fs := by
      rw [hmf, ← hfs, show loc.fp0 = some p0 from hfp0]
      exact Heap.readStr_congr ((hfr4 p0 hp0p (Nat.lt_of_lt_of_le hp0t ht1)).trans hp01)
    have hr4 : h4.readOptStr mf.fsnmres = .ok (if ignrdl || fs.head? ≠ some (chr '/') then some fs
        else resolvePath fs l.rdFs) := by
      rw [hmf, ← hr3]
      exact Heap.readOptStr_congr fun x hx => Heap.writeMnt_mem_of_ne hw4 (hlnp x hx).1
    have hnone := Heap.readOptStr_isNone hr3
    rw [nodeEntry_of_reads hd4 hf4 hr4]
    subst hmf hig
    simp only [fillEntry, fillFields, Except.ok.injEq, MountEntry.mk.injEq, true_and]
    dsimp only at hnone
    rw [hnone]
    split_ifs <;> cases l.statFs <;> rfl
  have hwf4 : h4.WF := hwf3.writeMnt hw4
  have hm4 : h4.mem p = some (.mnt mf) := Heap.writeMnt_mem_self hw4
  have ht4 : h1.top ≤ h4.top := by rw [Heap.writeMnt_top hw4, ← ht2]; exact ht3
  have hdirl : mf.dirl = d.length := by rw [hmf]; rfl
  have hout : ∀ x ∈ nodeObjs p mf, x ≠ p → x ∉ chainObjs N := by
    intro x hx hxp hxN
    have hmd : mf.dir = some pd := by rw [hmf]; exact hdn
    have hmfs : mf.fsname = some p0 := by rw [hmf]; exact hfp0
    have hmr : mf.fsnmres = ln := by rw [hmf]
    simp only [nodeObjs, hmd, hmfs, hmr, Option.toList_some, List.mem_cons, List.mem_append,
      List.not_mem_nil, or_false] at hx
    rcases hx with rfl | (rfl | rfl) | hx
    · exact hxp rfl
    · exact hpdN hxN
    · exact hp0N hxN
    · rcases (hlnp x hx).2 with rfl | hx'
      · exact hp0N hxN
      · exact Nat.lt_irrefl _ (Nat.lt_of_lt_of_le (Nat.lt_of_lt_of_le (hs.objs_lt hxN) ht1) hx')
  rcases hE with ⟨hmpn, rfl, rfl, rfl⟩ | ⟨hmpq, rfl, m, hm, hm', ht', -, hfr⟩
  · -- a new entry, linked at the head
    have hfind := (hmp.resolve_right fun ⟨n, _, h, _⟩ => by simp [hmpn] at h).2
    have hdN : d ∉ N.map fun n => n.2.2.dir := by simpa [List.find?_eq_none] using hfind
    have hframe : ∀ x ∈ chainObjs N, h4.mem x = st.heap.mem x := fun x hx => by
      have hxt := hs.objs_lt hx
      rw [hfr4 x (Nat.ne_of_lt hxt) (Nat.lt_succ_of_lt hxt),
        st.heap.alloc_mem_of_ne _ (Nat.ne_of_lt hxt)]
    have hdisj : ∀ x ∈ nodeObjs st.heap.top mf, x ∉ chainObjs N := fun x hx hxN => by
      by_cases hxp : x = st.heap.top
      · exact Nat.lt_irrefl _ (hxp ▸ hs.objs_lt hxN)
      · exact hout x hx hxp hxN
    exact .pure ⟨_, ⟨hs.link hwf4 (Nat.lt_of_lt_of_le (Nat.lt_succ_self _) ht4) hframe hm4 hent
      hdirl (by rw [hmf]; rfl) hdisj hdN, outside_none _ _, outside_none _ _,
      hfp1 ▸ outside_none _ _, outside_none _ _⟩, hmpn.symm, by rw [if_pos hmpn]; rfl⟩
  · -- the remembered entry for `/`, replaced in place
    obtain ⟨n, hn, hqn, hnd⟩ := hmp.resolve_left fun h => by simp [h.1] at hmpq
    obtain rfl : p = n.1 := Option.some.inj (hmpq.symm.trans hqn)
    obtain rfl : m = n.2.1 := Obj.mnt.inj (Option.some.inj (hm.symm.trans (hs.chain.mem_live hn)))
    obtain rfl := Obj.mnt.inj (Option.some.inj (hm1.symm.trans hm'))
    have hagree : ∀ x ∈ chainObjs N, x ∉ nodeObjs n.1 n.2.1 → h4.mem x = st.heap.mem x :=
      fun x hx hxn => by
        have hxp : x ≠ n.1 := fun h => hxn (h ▸ mem_nodeObjs_self _ _)
        rw [hfr4 x hxp (ht' ▸ hs.objs_lt hx), hfr x hxn]
    have hnew : ∀ x ∈ nodeObjs n.1 mf, x ∈ chainObjs N → x ∈ nodeObjs n.1 n.2.1 :=
      fun x hx hxN => by
        by_cases hxp : x = n.1
        · exact hxp ▸ mem_nodeObjs_self _ _
        · exact absurd hxN (hout x hx hxp)
    refine .pure ⟨_, ⟨hs.replace (hn : (n.1, n.2.1, n.2.2) ∈ N) hwf4 (ht' ▸ ht4) hagree hm4
      (by rw [hmf]; rfl) hent hdirl hnd.symm hnew, outside_none _ _, outside_none _ _,
      hfp1 ▸ outside_none _ _, outside_none _ _⟩, hmpq.symm, ?_⟩
    rw [if_neg (show ¬loc.mp = none by simp [hmpq]), List.map_map, List.map_map]
    refine List.map_congr_left fun x _ => ?_
    simp only [Function.comp, hnd]
    split <;> rfl

end LsofMount.Readmnt
