import LsofMount.Readmnt.Refine
import LsofMount.Supplement.Contract

/-!
# `readmnt` with `getmntdev` run on the context's supplement state

For a record whose `stat` failed or was not made, `readmnt` calls
`getmntdev(ctx, dn, dnl, &sb, &ds)` at line 604 when `MntSup` is 2 with a supplement path. The
model of `readmnt` takes that call's answer from the record (`MountLine.supDev`); here the two
functions run together. The loop body is cut at line 575 (`bodyHead`, `bodyTail`), and
`readmntSupStep` calls `getmntdev` between the halves on the supplement state the context
carries, handing a device found to the rest of the body. A fault of `getmntdev` ends the pass
as any fault does.

`SupAnswers env S ans` says that `getmntdev` answers each directory `d` from the supplement
states `S` as `ans d`, and stays among them. Under it the pass with the calls made is the
model's pass over the records whose answer is `ans` of the directory each reaches the
duplicate search with (`readmntSup_eq`): the directory `getmntdev` is asked about is the one
`lineDir` gives. A supplement file that meets the lookup contract answers so, `ans` being the
file's device for the directory (`readmntSup_fileDev`); one that cannot be read, or has a
record that fails a check, answers none (`readmntSup_defect`).

## What this module proves

- `readmntBody_eq`: the loop body is `bodyHead` followed by `bodyTail`.
- `readmntSupStep_eq`, `readmntSupLoop_eq`: an iteration, and then the whole loop, with the
  calls made is the model's with the answers `ans`, from every state the loop reaches.
- `readmntSup_fileDev`: with a supplement file that meets the lookup contract, a pass with the
  calls made is the model's pass with each record's answer the file's device for its
  directory.
- `readmntSup_defect`: with a supplement file that fails closed, a pass with the calls made is
  the model's pass with no record answered.
-/

set_option autoImplicit false

namespace LsofMount.Readmnt

open LsofMount LsofMount.Supplement

/-! ## The body cut at the `stat` -/

/-- Lines 457-573 of the body: the fields, the directory and the duplicate search. Hands on the
directory, `ignrdl`, `ignstat`, `nfs == 0`, `mqueue == 0`, the locals and the state. -/
def bodyHead (cfg : MntConfig) (l : MountLine) (loc : Locals) (st : MntState) :
    Body (CStr × Bool × Bool × Bool × Bool × Locals × MntState) := do
  let (ty, loc, st) ← fieldsBlock l loc st
  let s0 ← lift (st.heap.readStr loc.fp0)
  if isAutomounter s0 || isSkippedType ty then throw (.next loc st)
  else do
    let (d, ignrdl, ignstat, loc, st) ← dirBlock cfg l loc st
    let (nfs, mq, loc, st) ← dupBlock ty d loc st
    pure (d, ignrdl, ignstat, nfs, mq, loc, st)

/-- Lines 575-731 of the body, from what `bodyHead` hands on. -/
def bodyTail (cfg : MntConfig) (l : MountLine) :
    CStr × Bool × Bool × Bool × Bool × Locals × MntState → Body (Locals × MntState)
  | (d, ignrdl, ignstat, nfs, mq, loc, st) => do
      let (ds, loc) ← statBlock cfg l ignstat loc st
      fillBlock l d nfs mq ignrdl ignstat ds loc st

/-- Where the body leaves to. -/
def Body.toJump : Body (Locals × MntState) → Jump
  | .ok (loc, st) => .next loc st
  | .error j => j

theorem readmntBody_eq (cfg : MntConfig) (l : MountLine) (loc : Locals) (st : MntState) :
    readmntBody cfg l loc st = bodyHead cfg l loc st >>= bodyTail cfg l := by
  simp only [readmntBody, bodyHead, bind_assoc]
  congr 1
  funext ⟨ty, loc1, st1⟩
  simp only [bind_assoc]
  congr 1
  funext s0
  split
  · rfl
  · simp only [bind_assoc]
    rfl

theorem readmntStep_eq_toJump (cfg : MntConfig) (l : MountLine) (loc : Locals) (st : MntState) :
    readmntStep cfg l loc st = (readmntBody cfg l loc st).toJump := rfl

/-! ## The call of line 604 -/

/-- Line 604: after a `stat` that failed or was not made, `getmntdev` is called when `MntSup`
is 2 with a supplement path. -/
def callsSup (cfg : MntConfig) (l : MountLine) (ignstat : Bool) : Bool :=
  (if ignstat then none else l.statDir).isNone && (decide (cfg.mntSup = 2) && cfg.mntSupP)

/-- The record with `sup` as the answer of `getmntdev`. -/
def MountLine.withSup (l : MountLine) (sup : Option UInt64) : MountLine := { l with supDev := sup }

/-- One iteration with the call of line 604 made on the supplement state `sst`, `ds` being `0`:
a return of `1` hands the device in `sb` to the rest of the body. -/
def readmntSupStep (cfg : MntConfig) (env : SupEnv) (l : MountLine) (loc : Locals)
    (st : MntState) (sst : SupState) : Jump × SupState :=
  match bodyHead cfg l loc st with
  | .error j => (j, sst)
  | .ok (d, ignrdl, ignstat, nfs, mq, loc, st) =>
      if callsSup cfg l ignstat then
        match getmntdev env sst d d.length loc.sb StatBits.none with
        | .error f => (.fault f, sst)
        | .ok o =>
            ((bodyTail cfg (l.withSup (if o.ret = 1 then some o.sb.stDev else none))
              (d, ignrdl, ignstat, nfs, mq, loc, st)).toJump, o.state)
      else ((bodyTail cfg l (d, ignrdl, ignstat, nfs, mq, loc, st)).toJump, sst)

/-- The read loop with the calls made. -/
def readmntSupLoop (cfg : MntConfig) (env : SupEnv) :
    List MountLine → Locals → MntState → SupState → Jump × SupState
  | [], loc, st, sst => (.next loc st, sst)
  | l :: ls, loc, st, sst =>
      match readmntSupStep cfg env l loc st sst with
      | (.next loc st, sst) => readmntSupLoop cfg env ls loc st sst
      | r => r

/-- `readmnt(ctx)` with the calls made, and the supplement state after them. -/
def readmntSup (cfg : MntConfig) (env : SupEnv) (src : MountSource) (st : MntState)
    (sst : SupState) : Except Fault (Option Ptr × MntState) × SupState :=
  if st.lmi.isSome || st.lmist then (.ok (st.lmi, st), sst)
  else if !src.opens then (.ok (none, st), sst)
  else
    match readmntSupLoop cfg env src.lines Locals.init st sst with
    | (.fault f, sst) => (.error f, sst)
    | (.next loc st, sst) =>
        ((do
          let h ← cleanup loc st.heap
          pure (st.lmi, { st with heap := h, lmist := true })), sst)
    | (.exit loc st, sst) =>
        ((do
          let h ← cleanup loc st.heap
          pure (none, { st with heap := h })), sst)

/-- The records with the answer `ans d` for the directory `d` each reaches the duplicate search
with. -/
def MountSource.withSup (cfg : MntConfig) (ans : CStr → Option UInt64) (src : MountSource) :
    MountSource :=
  ⟨src.opens, src.lines.map fun l => l.withSup ((lineDir cfg l).bind ans)⟩

@[simp] theorem MountSource.withSup_opens (cfg : MntConfig) (ans : CStr → Option UInt64)
    (src : MountSource) : (src.withSup cfg ans).opens = src.opens := rfl

@[simp] theorem MountSource.withSup_lines (cfg : MntConfig) (ans : CStr → Option UInt64)
    (src : MountSource) :
    (src.withSup cfg ans).lines = src.lines.map fun l => l.withSup ((lineDir cfg l).bind ans) :=
  rfl

/-- `getmntdev`, called with `ds` zero, answers each directory `d` from the supplement states
`S` as `ans d` says, and stays among them. -/
def SupAnswers (env : SupEnv) (S : SupState → Prop) (ans : CStr → Option UInt64) : Prop :=
  ∀ sst, S sst → ∀ (d : CStr) (s : Stat), ∃ o,
    getmntdev env sst d d.length s StatBits.none = .ok o ∧
      (if o.ret = 1 then some o.sb.stDev else none) = ans d ∧ S o.state

/-! ## The answer reaches the body only through the call -/

theorem statBlock_withSup {cfg : MntConfig} {l : MountLine} {ignstat : Bool}
    (hc : callsSup cfg l ignstat = false) (sup : Option UInt64) (loc : Locals) (st : MntState) :
    statBlock cfg (l.withSup sup) ignstat loc st = statBlock cfg l ignstat loc st := by
  unfold statBlock
  cases hsd : (if ignstat then none else l.statDir) with
  | some sb =>
      have hsd' : (if ignstat then none else (l.withSup sup).statDir) = some sb := hsd
      rw [hsd']
  | none =>
      have hsd' : (if ignstat then none else (l.withSup sup).statDir) = none := hsd
      have hsup : ¬(cfg.mntSup = 2 ∧ cfg.mntSupP = true) := by
        simpa [callsSup, hsd] using hc
      rw [hsd', if_neg hsup, if_neg hsup]

/-- The head of the body, from a state the loop reaches, is at the directory `lineDir` gives. -/
theorem bodyHead_spec {cfg : MntConfig} {l : MountLine} {loc : Locals} {st : MntState}
    {N : List Node} (hinv : LoopInv loc st N) :
    Body.Spec (bodyHead cfg l loc st) (fun r => lineDir cfg l = some r.1) (fun _ _ => True)
      (fun _ _ => True) := by
  unfold bodyHead
  refine .bind ((fieldsBlock_spec hinv).mono (fun _ h => h) (fun _ _ _ => trivial)
    fun _ _ _ => trivial) fun ⟨ty, loc1, st1⟩ ⟨s0, s1, p0, p1, hhead, hinv1, hloc1, htp0, hp01,
      hm0, hm1⟩ => ?_
  dsimp only at hhead hinv1 hloc1 hm0 hm1
  subst hloc1
  refine .lift_bind fun s0' hs0' => ?_
  obtain rfl : s0' = cView s0 := Except.ok.inj (hs0'.symm.trans (Heap.readStr_of_mem hm0))
  split
  · exact .next trivial
  · next hauto =>
      have hhead' : lineHead l = some (s0, s1, ty) := by rw [hhead, if_neg hauto]
      have hdn1 : ∀ q, loc.dn = some q → q < p0 := fun q hq =>
        Nat.lt_of_lt_of_le (hinv.dn q hq).1 htp0
      refine .bind ((dirBlock_spec hinv1 rfl rfl hdn1 hp01 hm0 hm1).mono (fun _ h => h.1)
        (fun _ _ _ => trivial) fun _ _ _ => trivial) fun r hres => ?_
      refine .bind (?_ : Body.Spec _ (fun _ => True) _ _) fun _ _ =>
        .pure ((lineDir_of_head hhead').trans hres)
      rcases dupBlock ty r.1 r.2.2.2.1 r.2.2.2.2 with (_ | _ | _) | _ <;> trivial

/-! ## The pass with the calls made -/

section Calls

variable {env : SupEnv} {S : SupState → Prop} {ans : CStr → Option UInt64}
  (hS : SupAnswers env S ans)
include hS

/-- From a state the loop reaches, an iteration with the call made is the model's iteration
on the record with the answer `ans` of its directory. -/
theorem readmntSupStep_eq {cfg : MntConfig} {l : MountLine} {loc : Locals} {st : MntState}
    {N : List Node} (hinv : LoopInv loc st N) {sst : SupState} (hsst : S sst) :
    ∃ sst', S sst' ∧ readmntSupStep cfg env l loc st sst =
      (readmntStep cfg (l.withSup ((lineDir cfg l).bind ans)) loc st, sst') := by
  have hstep : readmntStep cfg (l.withSup ((lineDir cfg l).bind ans)) loc st =
      (bodyHead cfg l loc st >>= bodyTail cfg (l.withSup ((lineDir cfg l).bind ans))).toJump := by
    rw [readmntStep_eq_toJump, readmntBody_eq]
    rfl
  have hspec : Body.Spec (bodyHead cfg l loc st) _ _ _ := bodyHead_spec hinv
  unfold readmntSupStep
  cases hh : bodyHead cfg l loc st with
  | error j => exact ⟨sst, hsst, by rw [hstep, hh]; rfl⟩
  | ok r =>
      rw [hh] at hspec
      obtain ⟨d, ignrdl, ignstat, nfs, mq, loc1, st1⟩ := r
      dsimp only at hspec ⊢
      cases hc : callsSup cfg l ignstat with
      | false =>
          refine ⟨sst, hsst, ?_⟩
          rw [hstep, hh, if_neg (by simp)]
          show _ = (Body.toJump (do
            let (ds, loc) ← statBlock cfg (l.withSup _) ignstat loc1 st1
            fillBlock (l.withSup _) d nfs mq ignrdl ignstat ds loc st1), sst)
          rw [statBlock_withSup hc]
          rfl
      | true =>
          obtain ⟨o, ho, hans, hso⟩ := hS sst hsst d loc1.sb
          refine ⟨o.state, hso, ?_⟩
          rw [if_pos rfl, ho, hstep, hh, hspec, Option.some_bind, ← hans]
          rfl

/-- From a state the loop reaches, the loop with the calls made is the model's loop over the
records with the answers `ans`. -/
theorem readmntSupLoop_eq (cfg : MntConfig) (ls : List MountLine) :
    ∀ (loc : Locals) (st : MntState) (N : List Node) (sst : SupState), LoopInv loc st N → S sst →
      ∃ sst', S sst' ∧ readmntSupLoop cfg env ls loc st sst =
        (readmntLoop cfg (ls.map fun l => l.withSup ((lineDir cfg l).bind ans)) loc st, sst') := by
  induction ls with
  | nil => exact fun _ _ _ sst _ hsst => ⟨sst, hsst, rfl⟩
  | cons l ls ih =>
      intro loc st N sst hinv hsst
      obtain ⟨sst1, hs1, hstep⟩ := readmntSupStep_eq hS hinv hsst
      rw [readmntSupLoop, hstep, List.map_cons, readmntLoop]
      cases hj : readmntStep cfg (l.withSup ((lineDir cfg l).bind ans)) loc st with
      | next loc1 st1 =>
          obtain ⟨N1, hinv1, -⟩ := readmntStep_after hinv rfl
            (show loc.mp = none ↔ loc.mp.isSome = false by cases loc.mp <;> simp) hj
          exact ih loc1 st1 N1 sst1 hinv1 hs1
      | exit loc1 st1 => exact ⟨sst1, hs1, rfl⟩
      | fault f => exact ⟨sst1, hs1, rfl⟩

/-- From a well formed store, a pass with the calls made is the model's pass over the records
with the answers `ans`. -/
theorem readmntSup_eq (cfg : MntConfig) (src : MountSource) {st : MntState} (hwf : st.heap.WF)
    {sst : SupState} (hsst : S sst) :
    ∃ sst', S sst' ∧ readmntSup cfg env src st sst = (readmnt cfg (src.withSup cfg ans) st, sst') := by
  unfold readmntSup readmnt
  by_cases hc : (st.lmi.isSome || st.lmist) = true
  · exact ⟨sst, hsst, by rw [if_pos hc, if_pos hc]⟩
  rw [if_neg hc, if_neg hc, MountSource.withSup_opens, MountSource.withSup_lines]
  by_cases ho : (!src.opens) = true
  · exact ⟨sst, hsst, by rw [if_pos ho, if_pos ho]⟩
  have hlmi : st.lmi = none := by
    cases h : st.lmi with
    | none => rfl
    | some p => simp [h] at hc
  have hinv0 : LoopInv Locals.init st [] :=
    ⟨⟨hwf, hlmi ▸ .nil, Nat.zero_le _, List.nodup_nil⟩, outside_none _ _, outside_none _ _,
      outside_none _ _, outside_none _ _⟩
  obtain ⟨sst', hs', hloop⟩ := readmntSupLoop_eq hS cfg src.lines Locals.init st [] sst hinv0 hsst
  refine ⟨sst', hs', ?_⟩
  rw [if_neg ho, if_neg ho, hloop]
  cases readmntLoop cfg _ Locals.init st <;> rfl

end Calls

/-! ## A supplement file that meets the lookup contract -/

/-- The supplement states of a context reading a contract file: fresh, or holding a table that
answers as the file's lines do, with no error. -/
def ContractState (L : List CStr) (sst : SupState) : Prop :=
  sst = SupState.init ∨ ∃ A, Holds sst A ∧ sst.mountSupError = false ∧ sst.msHash ≠ none ∧
    supAnswer (A.map fun e => (e.dirName, e.dev)) = fileAnswer L

theorem fileAnswer_dev {L : List CStr} {d : CStr} {s : Stat} {o : SupOut}
    (h : o.answer = fileAnswer L ⟨d, s, StatBits.none⟩) :
    (if o.ret = 1 then some o.sb.stDev else none) = fileDev L d := by
  simp only [SupOut.answer, fileAnswer] at h
  cases hf : fileDev L d <;> rw [hf] at h <;> simp only [Prod.mk.injEq] at h
  · simp [h.1]
  · simp [h.1, h.2.1]

/-- A file that meets the lookup contract answers every directory with its device. -/
theorem supAnswers_file {env : SupEnv} (hmode : LookupMode env) (hread : env.readable = true)
    (hopen : env.opens = true) (herr : env.readError = false) {L : List CStr} {lastNl : Bool}
    (hfile : env.content = supFile L lastNl) (hne : L ≠ []) (hlines : ∀ l ∈ L, ContractLine l)
    (hdist : (L.map linePath).Nodup) : SupAnswers env (ContractState L) (fileDev L) := by
  have hF := supAnswer_of_forms hlines
  rintro sst (rfl | ⟨A, hA, herr1, hsome1, hT⟩) d s
  · obtain ⟨o, A, ho, hA, herr1, hsome1, hT, hans⟩ := getmntdev_first_call env hmode hread hopen
      herr L lastNl hfile hne (fun l hl => (hlines l hl).valid)
      (by rw [supAssoc_paths hlines]; exact hdist) ⟨d, s, StatBits.none⟩
    exact ⟨o, ho, fileAnswer_dev (hans.trans (congrFun hF _)),
      .inr ⟨A, hA, herr1, hsome1, hT.trans hF⟩⟩
  · obtain ⟨o, ho, hans, hst⟩ := getmntdev_holds env hA herr1 hsome1 ⟨d, s, StatBits.none⟩
    exact ⟨o, ho, fileAnswer_dev (hans.trans (congrFun hT _)),
      .inr ⟨A, hst ▸ hA, hst ▸ herr1, hst ▸ hsome1, hT⟩⟩

/-- A file that cannot be read, or one of whose `fgets` records fails a check, answers no
directory, from a fresh context and once the error flag is set. -/
theorem supAnswers_defect {env : SupEnv} (hmode : LookupMode env)
    (hdef : env.readable = false ∨ env.opens = false ∨ env.readError = true ∨
      ∃ r ∈ fgetsRecords supReadSize [] env.content, (supParse r).path? = none) :
    SupAnswers env (fun sst => sst = SupState.init ∨ sst.mountSupError = true) fun _ => none := by
  rintro sst (rfl | herr) d s
  · obtain ⟨st, hcall, herr⟩ := getmntdev_defect_first env hmode hdef d d.length s StatBits.none
    exact ⟨_, hcall, rfl, .inr herr⟩
  · exact ⟨⟨0, s, StatBits.none, sst⟩, by rw [getmntdev, if_pos herr], rfl, .inr herr⟩

/-- With a supplement file that cannot be read or has a record that fails a check, a pass of
`readmnt` with `getmntdev` called is the model's pass in which the supplement finds no
device for any record. -/
theorem readmntSup_defect (cfg : MntConfig) (env : SupEnv) (hmode : LookupMode env)
    (hdef : env.readable = false ∨ env.opens = false ∨ env.readError = true ∨
      ∃ r ∈ fgetsRecords supReadSize [] env.content, (supParse r).path? = none)
    (src : MountSource) {st : MntState} (hwf : st.heap.WF) :
    ∃ sst, readmntSup cfg env src st SupState.init =
      (readmnt cfg (src.withSup cfg fun _ => none) st, sst) := by
  obtain ⟨sst, -, h⟩ := readmntSup_eq (supAnswers_defect hmode hdef) cfg src hwf (.inl rfl)
  exact ⟨sst, h⟩

/-- The supplement file `/a 0x1` then `b 0x2`, whose second line has no path, for a record for
`/a` whose `stat` fails. -/
theorem readmntSup_defect_bad_line :
    LookupMode ⟨2, some (lit "/etc/lsof.sup"), true, true, lit "/a 0x1\nb 0x2\n", false,
        fun _ => true⟩ ∧
      (true = false ∨ true = false ∨ false = true ∨
        ∃ r ∈ fgetsRecords supReadSize [] (lit "/a 0x1\nb 0x2\n"), (supParse r).path? = none) ∧
      ∃ sst, readmntSup ⟨[], 2, true⟩ ⟨2, some (lit "/etc/lsof.sup"), true, true,
          lit "/a 0x1\nb 0x2\n", false, fun _ => true⟩
          ⟨true, [⟨some (lit "/dev/sdc1", lit "/a", lit "ext4"), true, fun _ => true, true,
            fun _ => true, .link (lit "/a"), none, none, true, true, .link (lit "/dev/sdc1"),
            none⟩]⟩ MntState.init SupState.init =
        (readmnt ⟨[], 2, true⟩ (MountSource.withSup ⟨[], 2, true⟩ (fun _ => none)
          ⟨true, [⟨some (lit "/dev/sdc1", lit "/a", lit "ext4"), true, fun _ => true, true,
            fun _ => true, .link (lit "/a"), none, none, true, true, .link (lit "/dev/sdc1"),
            none⟩]⟩) MntState.init, sst) :=
  ⟨⟨rfl, by decide, fun _ => rfl⟩, by decide,
    readmntSup_defect ⟨[], 2, true⟩ _ ⟨rfl, by decide, fun _ => rfl⟩ (by decide) _
      Heap.WF.empty⟩

end LsofMount.Readmnt
