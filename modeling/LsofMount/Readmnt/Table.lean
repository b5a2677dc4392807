import LsofMount.Readmnt.Loop

/-!
# The mount table `readmnt` is meant to build

`readTable` reads the chain from `Lmi` through the store as the callers of `readmnt` see it,
every string by its contents. `lineEntry` says what the loop makes of one record on its own:
the entry it fills, or `none` when a check of lines 457-539 or 575-623 drops the record.
`specTable` adds the records' entries one by one, most recent first: a directory seen before
keeps its entry, except that an NFS entry for `/` replaces a non-NFS one.

A completed pass does not always leave this table: when the last record to reach the
duplicate search matched an entry, `cleanup` releases that entry while it is still linked
(`readmnt_releases_duplicate`).
-/

set_option autoImplicit false

namespace LsofMount.Readmnt

open LsofMount LsofMount.OctalEscape

/-- A mount table entry as the callers of `readmnt` read it. -/
structure MountEntry where
  dir : CStr
  dirl : Nat
  dev : UInt64
  rdev : UInt64
  inode : UInt64
  mode : UInt32
  ds : StatBits
  ty : MntType
  fsname : CStr
  fsnmres : Option CStr
  fsMode : UInt32
  deriving DecidableEq, Repr

/-- The string at `p`, `NULL` allowed. -/
def Heap.readOptStr (h : Heap) : Option Ptr → Except Fault (Option CStr)
  | none => .ok none
  | some p => some <$> h.readStr (some p)

/-- The entry a node's record stands for, its strings read through the store. -/
def nodeEntry (h : Heap) (m : Mounts) : Except Fault MountEntry := do
  let dir ← h.readStr m.dir
  let fsname ← h.readStr m.fsname
  let fsnmres ← h.readOptStr m.fsnmres
  pure ⟨dir, m.dirl, m.dev, m.rdev, m.inode, m.mode, m.ds, m.ty, fsname, fsnmres, m.fsMode⟩

/-- The entries of the chain from `p`, read through the store; `fuel` bounds the walk. -/
def readTable (h : Heap) : Nat → Option Ptr → Except Fault (List MountEntry)
  | _, none => .ok []
  | 0, some _ => .ok []
  | n + 1, some p => do
      let m ← h.readMnt p
      let e ← nodeEntry h m
      let rest ← readTable h n m.next
      pure (e :: rest)

/-! ## The table record by record -/

/-- The path `Readlink` resolves `d` to, `none` when it fails. -/
def resolvePath (d : CStr) : RdResult → Option CStr
  | .fail => none
  | .same => some d
  | .link s => some (cView s)

/-- `ds` and `sb` of lines 575-623, `none` when the record is dropped. -/
def statResult (cfg : MntConfig) (l : MountLine) (ignstat : Bool) : Option (StatBits × Stat) :=
  match (if ignstat then none else l.statDir) with
  | some sb => some (StatBits.all, sb)
  | none =>
      if cfg.mntSup = 2 ∧ cfg.mntSupP then
        some (match l.supDev with
          | some dev => (⟨true, false, false, false⟩, { Stat.zero with stDev := dev })
          | none => (StatBits.none, Stat.zero))
      else if ignstat then some (StatBits.none, Stat.zero) else none

/-- Lines 457-489: the converted device name and directory and the type, for a record that
passes the field, conversion, automounter and type checks. -/
def lineHead (l : MountLine) : Option (CStr × CStr × CStr) := do
  let (f0, f1, ty) ← l.fields
  let s0 ← convertOctalEscaped l.cvt0Malloc l.cvt0Realloc f0
  let s1 ← convertOctalEscaped l.cvt1Malloc l.cvt1Realloc f1
  if isAutomounter (cView s0) || isSkippedType ty then none else pure (s0, s1, ty)

/-- Lines 491-539: the directory the converted directory `s1` comes to, resolved by `Readlink`
unless the `-e` list says not to, when it is absolute. -/
def resolveDir (cfg : MntConfig) (l : MountLine) (s1 : CStr) : Option CStr :=
  (if (efsysFlags cfg.efsysl (cView s1)).1 then some (cView s1)
    else resolvePath (cView s1) l.rdDir).bind fun d =>
  if d.head? ≠ some (chr '/') then none else some d

/-- The directory a record reaches the duplicate search with. -/
def lineDir (cfg : MntConfig) (l : MountLine) : Option CStr := do
  let (_, s1, _) ← lineHead l
  resolveDir cfg l s1

/-- The entry lines 651-730 fill for the directory `d`, the file system name `fs`, the type
tag `ty` and the `stat` result `(ds, sb)`: the name resolved into `fsnmres` (a copy when it is
not resolved), and its mode when it can be `stat`ed. -/
def fillEntry (l : MountLine) (d fs : CStr) (ty : MntType) (ds : StatBits) (sb : Stat)
    (ignrdl ignstat : Bool) : MountEntry :=
  let copied := ignrdl || fs.head? ≠ some (chr '/')
  let fsnmres := if copied then some fs else resolvePath fs l.rdFs
  let fsMode := if (copied || ignstat) || fsnmres.isNone then 0 else
    match l.statFs with
    | some sb => sb.stMode
    | none => 0
  ⟨d, d.length, if ds.dev then sb.stDev else 0, if ds.rdev then sb.stRdev else 0,
    if ds.ino then sb.stIno else 0, if ds.mode then sb.stMode else 0, ds, ty, fs, fsnmres,
    fsMode⟩

@[simp] theorem fillEntry_dir (l : MountLine) (d fs : CStr) (ty : MntType) (ds : StatBits)
    (sb : Stat) (ignrdl ignstat : Bool) : (fillEntry l d fs ty ds sb ignrdl ignstat).dir = d :=
  rfl

@[simp] theorem fillEntry_ty (l : MountLine) (d fs : CStr) (ty : MntType) (ds : StatBits)
    (sb : Stat) (ignrdl ignstat : Bool) : (fillEntry l d fs ty ds sb ignrdl ignstat).ty = ty :=
  rfl

/-- The entry the loop fills for a record that passes every check, from the record alone. -/
def lineEntry (cfg : MntConfig) (l : MountLine) : Option MountEntry := do
  let (s0, s1, ty) ← lineHead l
  let d ← lineDir cfg l
  let (ignrdl, ignstat) := efsysFlags cfg.efsysl (cView s1)
  let (ds, sb) ← statResult cfg l ignstat
  pure (fillEntry l d (cView s0)
    (if isNfsType ty then .nfs else if ty == lit "mqueue" then .mqueue else .reglr) ds sb
    ignrdl ignstat)

/-- One record's entry added to the table: a directory already present keeps its entry,
except that an NFS entry replaces a non-NFS one for `/`, in place. -/
def addEntry (T : List MountEntry) (e : MountEntry) : List MountEntry :=
  match T.find? (·.dir == e.dir) with
  | none => e :: T
  | some old =>
      if e.dir = lit "/" ∧ old.ty ≠ .nfs ∧ e.ty = .nfs then
        T.map fun x => if x.dir = e.dir then e else x
      else T

section Add

variable {T : List MountEntry} {e : MountEntry}

theorem addEntry_of_find_none (h : T.find? (·.dir == e.dir) = none) : addEntry T e = e :: T := by
  simp [addEntry, h]

theorem addEntry_of_replace {old : MountEntry} (h : T.find? (·.dir == e.dir) = some old)
    (hroot : e.dir = lit "/") (hold : old.ty ≠ .nfs) (hnfs : e.ty = .nfs) :
    addEntry T e = T.map fun x => if x.dir = e.dir then e else x := by
  simp only [addEntry, h]
  rw [if_pos ⟨hroot, hold, hnfs⟩]

theorem addEntry_keep {old : MountEntry} (h : T.find? (·.dir == e.dir) = some old)
    (hkeep : e.dir ≠ lit "/" ∨ old.ty = .nfs ∨ e.ty ≠ .nfs) : addEntry T e = T := by
  simp only [addEntry, h]
  rw [if_neg]
  rintro ⟨h1, h2, h3⟩
  rcases hkeep with h | h | h <;> contradiction

end Add

/-- One record of a pass: the table with the record's entry added, and whether the record
reached the duplicate search with a directory the table holds (the last such answer stays
until another record reaches the search). -/
def specStep (cfg : MntConfig) (acc : List MountEntry × Bool) (l : MountLine) :
    List MountEntry × Bool :=
  ((lineEntry cfg l).elim acc.1 (addEntry acc.1),
    (lineDir cfg l).elim acc.2 fun d => acc.1.any (·.dir == d))

/-- The table of a pass over the records, most recent first. -/
def specTable (cfg : MntConfig) (lines : List MountLine) : List MountEntry :=
  (lines.foldl (specStep cfg) ([], false)).1

/-- The last record of a pass to reach the duplicate search found its directory in the
table. -/
def lastHit (cfg : MntConfig) (lines : List MountLine) : Bool :=
  (lines.foldl (specStep cfg) ([], false)).2

/-! ## What one record does to the table -/

section Record

variable {cfg : MntConfig} {l : MountLine}

/-- The resolved directory is kept when it is absolute. -/
theorem resolveDir_of_target {s1 d : CStr}
    (h : (if (efsysFlags cfg.efsysl (cView s1)).1 then some (cView s1)
      else resolvePath (cView s1) l.rdDir) = some d) :
    resolveDir cfg l s1 = if d.head? ≠ some (chr '/') then none else some d := by
  rw [resolveDir, h]
  rfl

theorem lineDir_of_head {s0 s1 ty : CStr} (hh : lineHead l = some (s0, s1, ty)) :
    lineDir cfg l = resolveDir cfg l s1 := by
  simp [lineDir, hh]

theorem lineEntry_eq_none (hd : lineDir cfg l = none) : lineEntry cfg l = none := by
  unfold lineEntry
  cases hh : lineHead l with
  | none => rfl
  | some r => simp [hd]

/-- A record's entry is the one filled from its head, its directory and its `stat` result. -/
theorem lineEntry_of_head {s0 s1 ty d : CStr} (hh : lineHead l = some (s0, s1, ty))
    (hd : lineDir cfg l = some d) :
    lineEntry cfg l = (statResult cfg l (efsysFlags cfg.efsysl (cView s1)).2).map fun r =>
      fillEntry l d (cView s0)
        (if isNfsType ty then .nfs else if ty == lit "mqueue" then .mqueue else .reglr) r.1 r.2
        (efsysFlags cfg.efsysl (cView s1)).1 (efsysFlags cfg.efsysl (cView s1)).2 := by
  simp only [lineEntry, hh, hd, Option.bind_eq_bind, Option.some_bind]
  cases statResult cfg l (efsysFlags cfg.efsysl (cView s1)).2 <;> rfl

theorem lineEntry_dir {e : MountEntry} (he : lineEntry cfg l = some e) :
    lineDir cfg l = some e.dir := by
  cases hd : lineDir cfg l with
  | none => rw [lineEntry_eq_none hd] at he; cases he
  | some d =>
      obtain ⟨⟨s0, s1, ty⟩, hh⟩ : ∃ r, lineHead l = some r := by
        cases hh : lineHead l with
        | none => simp [lineDir, hh] at hd
        | some r => exact ⟨r, rfl⟩
      rw [lineEntry_of_head hh hd] at he
      obtain ⟨r, -, rfl⟩ := Option.map_eq_some'.mp he
      rfl

/-- A record that does not reach the duplicate search changes nothing. -/
theorem specStep_of_lineDir_none (hd : lineDir cfg l = none) (acc : List MountEntry × Bool) :
    specStep cfg acc l = acc := by
  simp [specStep, hd, lineEntry_eq_none hd]

theorem specStep_of_lineDir {d : CStr} (hd : lineDir cfg l = some d)
    (acc : List MountEntry × Bool) :
    specStep cfg acc l = ((lineEntry cfg l).elim acc.1 (addEntry acc.1),
      acc.1.any (·.dir == d)) := by
  simp [specStep, hd]

end Record

/-- Two records for `/x`. The second matches the first's entry in the duplicate search and
is dropped, but `mp` still points at that entry when the loop ends, and `CLEAN(mp)` releases
it: `readmnt` completes and returns an entry that is no longer allocated, where the table
should hold the first record's entry. -/
theorem readmnt_releases_duplicate :
    specTable ⟨[], 0, false⟩
      [⟨some (lit "/dev/sda1", lit "/x", lit "ext4"), true, fun _ => true, true, fun _ => true,
        .link (lit "/x"), some Stat.zero, none, true, true, .link (lit "/dev/sda1"), none⟩,
       ⟨some (lit "/dev/sdb1", lit "/x", lit "ext4"), true, fun _ => true, true, fun _ => true,
        .link (lit "/x"), some Stat.zero, none, true, true, .link (lit "/dev/sdb1"), none⟩] =
      [⟨lit "/x", 2, 0, 0, 0, 0, StatBits.all, .reglr, lit "/dev/sda1", some (lit "/dev/sda1"), 0⟩] ∧
    ∃ st, readmnt ⟨[], 0, false⟩ ⟨true,
      [⟨some (lit "/dev/sda1", lit "/x", lit "ext4"), true, fun _ => true, true, fun _ => true,
        .link (lit "/x"), some Stat.zero, none, true, true, .link (lit "/dev/sda1"), none⟩,
       ⟨some (lit "/dev/sdb1", lit "/x", lit "ext4"), true, fun _ => true, true, fun _ => true,
        .link (lit "/x"), some Stat.zero, none, true, true, .link (lit "/dev/sdb1"), none⟩]⟩
      MntState.init = .ok (some 3, st) ∧ st.lmist = true ∧
      readTable st.heap st.heap.top (some 3) = .error (.useAfterFree 3) :=
  ⟨by decide, _, rfl, rfl, rfl⟩

end LsofMount.Readmnt
