import LsofMount.OctalEscape
import LsofMount.Readmnt.Heap

/-!
# `readmnt` and `clean_mnt`

`readmnt` (`dmnt.c`, lines 423-749) reads the mount table once per context and keeps it in
`Lmi`, a chain of `struct mounts` linked through `next`, most recent first; `Lmist` records
that a pass completed. `clean_mnt` (lines 751-771) releases the chain and clears both.

The functions `readmnt` calls outside this file are given by their answers: a `MountLine` is
one `fgets` record together with what `get_fields`, the allocator inside
`convert_octal_escaped`, `Readlink`, `statsafely`, `getmntdev`, `malloc` and `mkstrcpy` return
for it. `convert_octal_escaped` itself is the model of `LsofMount.OctalEscape`.

The loop body is cut along the source into blocks (`fieldsBlock`, `dirBlock`, `dupBlock`,
`statBlock`, `entryBlock`, `fillBlock`). A block either hands its results on or leaves the body by a
`Jump`: `continue` (`Jump.next`), `goto cleanup` (`Jump.exit`), or a fault of the store.
-/

set_option autoImplicit false

namespace LsofMount.Readmnt

open LsofMount LsofMount.OctalEscape

/-! ## Inputs and state -/

/-- What `Readlink(ctx, p)` returns: `NULL`, `p` itself (no link in the path), or a new
string holding the resolved path. -/
inductive RdResult where
  | fail
  | same
  | link (s : CStr)

/-- One `fgets` record of the mount table and the answers of the calls made for it. -/
structure MountLine where
  /-- `get_fields`: the first three fields, `none` when there are fewer or one is `NULL`. -/
  fields : Option (CStr × CStr × CStr)
  /-- The allocator's answers inside `convert_octal_escaped(fp[0])`. -/
  cvt0Malloc : Bool
  cvt0Realloc : Nat → Bool
  /-- The allocator's answers inside `convert_octal_escaped(fp[1])`. -/
  cvt1Malloc : Bool
  cvt1Realloc : Nat → Bool
  /-- `Readlink(dn)` on the mounted-on directory. -/
  rdDir : RdResult
  /-- `statsafely(dn, &sb)`: the buffer when it succeeds. -/
  statDir : Option Stat
  /-- `getmntdev(dn, dnl, &sb, &ds)`: the device when it returns 1. -/
  supDev : Option UInt64
  /-- `malloc(sizeof(struct mounts))` succeeds. -/
  mntAlloc : Bool
  /-- `mkstrcpy(dn)` succeeds. -/
  cpyAlloc : Bool
  /-- `Readlink(dn)` on the file system name. -/
  rdFs : RdResult
  /-- `statsafely(ln, &sb)` on the resolved file system name. -/
  statFs : Option Stat

/-- `/proc/mounts`: whether `open_proc_stream` opens it, and its records. -/
structure MountSource where
  opens : Bool
  lines : List MountLine

/-- The options `readmnt` reads. -/
structure MntConfig where
  /-- `Efsysl`, the `-e` list: each path with its `rdlnk` flag. -/
  efsysl : List (CStr × Bool)
  /-- `MntSup`. -/
  mntSup : Int
  /-- `MntSupP` is not `NULL`. -/
  mntSupP : Bool

/-- The context's mount table state and the store. -/
structure MntState where
  heap : Heap
  /-- `Lmi`, the head of the chain. -/
  lmi : Option Ptr
  /-- `Lmist`. -/
  lmist : Bool
  /-- `HasNFS`. -/
  hasNFS : Nat
  /-- `MqueueDev`. -/
  mqueueDev : UInt64

/-- A fresh context. -/
def MntState.init : MntState := ⟨Heap.empty, none, false, 0, 0⟩

/-- `readmnt`'s pointer locals and its `stat` buffer, which live across iterations. -/
structure Locals where
  dn : Option Ptr
  fp0 : Option Ptr
  fp1 : Option Ptr
  ln : Option Ptr
  mp : Option Ptr
  /-- `sb`; its value before the first `stat` is never read. -/
  sb : Stat

/-- The locals on entry: every pointer `NULL`. -/
def Locals.init : Locals := ⟨none, none, none, none, none, Stat.zero⟩

/-- Where the loop body leaves to. -/
inductive Jump where
  /-- `continue`, or the end of the body. -/
  | next (loc : Locals) (st : MntState)
  /-- `goto cleanup`. -/
  | exit (loc : Locals) (st : MntState)
  | fault (f : Fault)

/-- A stretch of the loop body: a value, or a jump out of the body. -/
abbrev Body := Except Jump

/-- A store operation inside the body. -/
def lift {α : Type} (x : Except Fault α) : Body α := x.mapError .fault

/-! ## Tests on the fields -/

/-- Lines 482-484: the device name has a colon followed by `(pid`, an automounter entry. -/
def isAutomounter (dev : CStr) : Bool :=
  match strchr dev (chr ':') with
  | some i => strncasecmpEq (dev.drop (i + 1)) (lit "(pid") 4
  | none => false

/-- Lines 485-487: an `autofs`, `pipefs` or `sockfs` entry. -/
def isSkippedType (ty : CStr) : Bool :=
  strcasecmpEq ty (lit "autofs") || strcasecmpEq ty (lit "pipefs") || strcasecmpEq ty (lit "sockfs")

/-- Lines 551-554: the type is `nfs`, `nfs3` or `nfs4`, so `nfs` is `0`. -/
def isNfsType (ty : CStr) : Bool :=
  strcasecmpEq ty (lit "nfs") || strcasecmpEq ty (lit "nfs3") || strcasecmpEq ty (lit "nfs4")

/-- Lines 500-510: `(ignrdl, ignstat)` from the first `-e` entry for the directory. -/
def efsysFlags (efsysl : List (CStr × Bool)) (d : CStr) : Bool × Bool :=
  match efsysl.find? (fun e => e.1 == d) with
  | some e => (e.2, true)
  | none => (false, false)

/-- `Readlink(ctx, p)` as its answer says. -/
def readlink (h : Heap) (p : Ptr) : RdResult → Option Ptr × Heap
  | .fail => (none, h)
  | .same => (some p, h)
  | .link s => ((h.alloc (.str s)).1, (h.alloc (.str s)).2)

/-- The duplicate search of lines 550-553 for the directory `d` along the chain from `p`.
`fuel` bounds the walk; a chain `readmnt` built is shorter than the store. -/
def findMnt (h : Heap) (d : CStr) : Nat → Option Ptr → Except Fault (Option Ptr)
  | _, none => .ok none
  | 0, some _ => .ok none
  | n + 1, some p => do
      let m ← h.readMnt p
      if d.length = m.dirl then do
        let md ← h.readStr m.dir
        if d = md then pure (some p) else findMnt h d n m.next
      else findMnt h d n m.next

/-! ## The loop body -/

/-- Lines 457-478: the record's fields, with the previous `fp0` and `fp1` released and
replaced by the converted device name and directory. Returns `fp[2]`. -/
def fieldsBlock (l : MountLine) (loc : Locals) (st : MntState) :
    Body (CStr × Locals × MntState) := do
  let some (f0, f1, f2) := l.fields | throw (.next loc st)
  let h ← lift (st.heap.clean loc.fp0)
  let h ← lift (h.clean loc.fp1)
  let loc := { loc with fp0 := none, fp1 := none }
  let some s0 := convertOctalEscaped l.cvt0Malloc l.cvt0Realloc f0
    | throw (.next loc { st with heap := h })
  let loc := { loc with fp0 := some (h.alloc (.str s0)).1 }
  let h := (h.alloc (.str s0)).2
  let some s1 := convertOctalEscaped l.cvt1Malloc l.cvt1Realloc f1
    | throw (.next loc { st with heap := h })
  pure (f2, { loc with fp1 := some (h.alloc (.str s1)).1 }, { st with heap := (h.alloc (.str s1)).2 })

/-- Lines 520-537: `Readlink(dn)`. A resolved path replaces `dn`, which is released; when
`Readlink` returns `dn` itself, `ln` is left equal to it. -/
def readlinkDir (l : MountLine) (loc : Locals) (h : Heap) (st : MntState) :
    Body (Locals × Heap) :=
  match l.rdDir with
  | .fail => throw (.next { loc with ln := none } { st with heap := h })
  | .same => pure ({ loc with ln := loc.dn }, h)
  | .link s => do
      let h' ← lift ((h.alloc (.str s)).2.clean loc.dn)
      pure ({ loc with dn := some (h.alloc (.str s)).1, ln := none }, h')

/-- Lines 491-539: `dn` takes over `fp1`, is resolved by `Readlink` unless the `-e` list
says otherwise, and must be absolute. Returns its path, `ignrdl` and `ignstat`. -/
def dirBlock (cfg : MntConfig) (l : MountLine) (loc : Locals) (st : MntState) :
    Body (CStr × Bool × Bool × Locals × MntState) := do
  let h ← lift (st.heap.clean loc.dn)
  let loc := { loc with dn := loc.fp1, fp1 := none }
  let d ← lift (h.readStr loc.dn)
  let (ignrdl, ignstat) := efsysFlags cfg.efsysl d
  let (loc, h) ← (if ignrdl then pure (loc, h) else readlinkDir l loc h st : Body _)
  let d ← lift (h.readStr loc.dn)
  if d.head? ≠ some (chr '/') then throw (.next loc { st with heap := h })
  else pure (d, ignrdl, ignstat, loc, { st with heap := h })

/-- Lines 557-558: an NFS entry sets `HasNFS` when it is still `0`. -/
def noteNfs (nfs : Bool) (st : MntState) : MntState :=
  if nfs && st.hasNFS == 0 then { st with hasNFS := 1 } else st

@[simp] theorem noteNfs_heap (nfs : Bool) (st : MntState) : (noteNfs nfs st).heap = st.heap := by
  unfold noteNfs; split <;> rfl

@[simp] theorem noteNfs_lmi (nfs : Bool) (st : MntState) : (noteNfs nfs st).lmi = st.lmi := by
  unfold noteNfs; split <;> rfl

/-- Lines 545-573: the duplicate search, the NFS test and `HasNFS`. A duplicate is dropped
unless it is `/`, the remembered entry is not NFS and this one is. Returns `nfs == 0` and
`mqueue == 0`. -/
def dupBlock (ty d : CStr) (loc : Locals) (st : MntState) :
    Body (Bool × Bool × Locals × MntState) := do
  let mq := ty == lit "mqueue"
  let mp ← lift (findMnt st.heap d st.heap.top st.lmi)
  let nfs := isNfsType ty
  let st := noteNfs nfs st
  let loc := { loc with mp := mp }
  match mp with
  | none => pure (nfs, mq, loc, st)
  | some p =>
      if d ≠ lit "/" then throw (.next loc st)
      else do
        let m ← lift (st.heap.readMnt p)
        if m.ty = .nfs || !nfs then throw (.next loc st)
        else pure (nfs, mq, loc, st)

/-- Lines 575-623: `ds` and `sb` from `statsafely`, or else from the mount supplement; with
neither, the record is dropped unless the `-e` list exempted it from `stat`. -/
def statBlock (cfg : MntConfig) (l : MountLine) (ignstat : Bool) (loc : Locals)
    (st : MntState) : Body (StatBits × Locals) :=
  match (if ignstat then none else l.statDir) with
  | some sb => pure (StatBits.all, { loc with sb := sb })
  | none =>
      if cfg.mntSup = 2 ∧ cfg.mntSupP then
        match l.supDev with
        | some dev => pure (⟨true, false, false, false⟩, { loc with sb := { Stat.zero with stDev := dev } })
        | none => pure (StatBits.none, loc)
      else if !ignstat then throw (.next loc st)
      else pure (StatBits.none, loc)

/-- Lines 625-650: the entry `mp` to fill. A remembered entry is reused with its strings
released; otherwise a new one is allocated. Returns `ne` and the entry. -/
def entryBlock (l : MountLine) (loc : Locals) (st : MntState) : Body (Bool × Ptr × Heap) :=
  match loc.mp with
  | some p => do
      let m ← lift (st.heap.readMnt p)
      let h ← lift (st.heap.clean m.dir)
      let h ← lift (h.clean m.fsname)
      let h ← lift (h.clean m.fsnmres)
      let h ← lift (h.writeMnt p { m with dir := none, fsname := none, fsnmres := none })
      pure (false, p, h)
  | none =>
      if l.mntAlloc then pure (true, (st.heap.alloc (.mnt Mounts.blank)).1,
        (st.heap.alloc (.mnt Mounts.blank)).2)
      else throw (.exit loc st)

/-- The entry's fields of lines 651-673 and 694, its strings being `dir` and `fsname`. -/
def fillFields (m : Mounts) (ne : Bool) (lmi : Option Ptr) (dir fsname : Option Ptr)
    (d : CStr) (nfs mq : Bool) (ds : StatBits) (sb : Stat) : Mounts :=
  { m with
    dir := dir
    dirl := d.length
    next := if ne then lmi else m.next
    dev := if ds.dev then sb.stDev else 0
    rdev := if ds.rdev then sb.stRdev else 0
    inode := if ds.ino then sb.stIno else 0
    mode := if ds.mode then sb.stMode else 0
    ds := ds
    ty := if nfs then .nfs else if mq then .mqueue else .reglr
    fsname := fsname }

/-- Lines 702-717: `ln` for the file system name `fs` that `dn` holds: a copy when the `-e`
list says not to resolve links or the name is not a path, `Readlink`'s answer otherwise.
Returns `ln`, `ignstat` and the store. -/
def fsnameBlock (l : MountLine) (fs : CStr) (ignrdl ignstat : Bool) (loc : Locals) (h : Heap)
    (st : MntState) : Body (Option Ptr × Bool × Heap) :=
  if ignrdl || fs.head? ≠ some (chr '/') then
    if l.cpyAlloc then pure (some (h.alloc (.str fs)).1, true, (h.alloc (.str fs)).2)
    else throw (.exit { loc with ln := none } st)
  else
    match loc.dn with
    | some q => pure ((readlink h q l.rdFs).1, ignstat, (readlink h q l.rdFs).2)
    | none => throw (.fault .nullDeref)

/-- Lines 625-731: fill the entry, resolve the file system name into `ln`, and link a new
entry at the head of `Lmi`. -/
def fillBlock (l : MountLine) (d : CStr) (nfs mq ignrdl ignstat : Bool) (ds : StatBits)
    (loc : Locals) (st : MntState) : Body (Locals × MntState) := do
  let (ne, p, h) ← entryBlock l loc st
  let m ← lift (h.readMnt p)
  let m := fillFields m ne st.lmi loc.dn loc.fp0 d nfs mq ds loc.sb
  let h ← lift (h.writeMnt p m)
  let st := { st with
    heap := h
    hasNFS := if nfs && st.hasNFS < 2 then 2 else st.hasNFS
    mqueueDev := if !nfs && mq then m.dev else st.mqueueDev }
  let loc := { loc with dn := loc.fp0, fp0 := none, mp := some p }
  let fs ← lift (h.readStr loc.dn)
  let (ln, ignstat, h) ← fsnameBlock l fs ignrdl ignstat loc h st
  -- lines 722-730
  let sb := match (if ignstat || ln.isNone then none else l.statFs) with
    | some sb => sb
    | none => { loc.sb with stMode := 0 }
  let h ← lift (h.writeMnt p { m with fsnmres := ln, fsMode := sb.stMode })
  let loc := { loc with dn := none, ln := none, sb := sb }
  if ne then pure ({ loc with mp := none }, { st with heap := h, lmi := some p })
  else pure (loc, { st with heap := h })

/-- The `while` body, lines 457-731, on one record. -/
def readmntBody (cfg : MntConfig) (l : MountLine) (loc : Locals) (st : MntState) :
    Body (Locals × MntState) := do
  let (ty, loc, st) ← fieldsBlock l loc st
  let s0 ← lift (st.heap.readStr loc.fp0)
  if isAutomounter s0 || isSkippedType ty then throw (.next loc st)
  else do
    let (d, ignrdl, ignstat, loc, st) ← dirBlock cfg l loc st
    let (nfs, mq, loc, st) ← dupBlock ty d loc st
    let (ds, loc) ← statBlock cfg l ignstat loc st
    fillBlock l d nfs mq ignrdl ignstat ds loc st

/-- One iteration: where the body leaves to. -/
def readmntStep (cfg : MntConfig) (l : MountLine) (loc : Locals) (st : MntState) : Jump :=
  match readmntBody cfg l loc st with
  | .ok (loc, st) => .next loc st
  | .error j => j

/-- The read loop of lines 456-731 over the remaining records. -/
def readmntLoop (cfg : MntConfig) : List MountLine → Locals → MntState → Jump
  | [], loc, st => .next loc st
  | l :: ls, loc, st =>
      match readmntStep cfg l loc st with
      | .next loc st => readmntLoop cfg ls loc st
      | j => j

/-! ## The calls -/

/-- Lines 740-746: `CLEAN` of each pointer local. -/
def cleanup (loc : Locals) (h : Heap) : Except Fault Heap := do
  let h ← h.clean loc.dn
  let h ← h.clean loc.fp0
  let h ← h.clean loc.fp1
  let h ← h.clean loc.ln
  h.clean loc.mp

/-- `readmnt(ctx)`: the cached `Lmi` when there is one or a pass completed, and otherwise a
pass over the mount table. -/
def readmnt (cfg : MntConfig) (src : MountSource) (st : MntState) :
    Except Fault (Option Ptr × MntState) :=
  if st.lmi.isSome || st.lmist then .ok (st.lmi, st)
  else if !src.opens then .ok (none, st)
  else
    match readmntLoop cfg src.lines Locals.init st with
    | .fault f => .error f
    | .next loc st => do
        let h ← cleanup loc st.heap
        pure (st.lmi, { st with heap := h, lmist := true })
    | .exit loc st => do
        let h ← cleanup loc st.heap
        pure (none, { st with heap := h })

/-- The last record's mount point has no symbolic link, so `Readlink` returns `dn` itself and
`ln` is left equal to `dn`; it cannot be `stat`ed, so the record is dropped. `cleanup` then
releases the directory string twice, by `CLEAN(dn)` and by `CLEAN(ln)`. -/
theorem readmnt_stale_ln :
    readmnt ⟨[], 0, false⟩
      ⟨true, [⟨some (lit "portal", lit "/run/user/1000/doc", lit "fuse.portal"), true,
        fun _ => true, true, fun _ => true, .same, none, none, true, true, .same, none⟩]⟩
      MntState.init = .error (.doubleFree 1) :=
  rfl

/-- The release loop of lines 761-768 along the chain from `p`. -/
def freeMounts (h : Heap) : Nat → Option Ptr → Except Fault Heap
  | _, none => .ok h
  | 0, some _ => .ok h
  | n + 1, some p => do
      let m ← h.readMnt p
      let h ← h.clean m.dir
      let h ← h.clean m.fsname
      let h ← h.clean m.fsnmres
      let h ← h.free p
      freeMounts h n m.next

/-- `clean_mnt(ctx)`: nothing unless a pass completed; then the chain is released and both
`Lmist` and `Lmi` are cleared. -/
def cleanMnt (st : MntState) : Except Fault MntState :=
  if !st.lmist then .ok st
  else do
    let h ← freeMounts st.heap st.heap.top st.lmi
    pure { st with heap := h, lmist := false, lmi := none }

end LsofMount.Readmnt
