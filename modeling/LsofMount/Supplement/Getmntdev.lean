import LsofMount.Supplement.Line

/-!
# `getmntdev`: the lazily built mount supplement table and its lookups

The context keeps two pieces of state for the mount supplement: the sticky flag
`ctxd.mount_sup_error` and the bucket array `MSHash`, `NULL` until the first valid line is
read. `getmntdev` (`dmnt.c`, lines 163-401) returns `0` at once when the flag is set; when
`MSHash` is `NULL` it reads the whole file (`buildLoop`, lines 218-347), tears the table
down if any check failed or the read failed (lines 348-371), and then looks the directory
up in its bucket (lines 378-393). An allocation failure goes to `cleanup` with the table as
it stands.

A bucket chain is a list, its head `MSHash[h]`; an entry is `mntsup_t`. The file and the
answers of `is_readable`, `open_proc_stream`, `ferror` and the allocator are a `SupEnv`;
the allocator's answer to the `n`-th request of the context is `alloc n`, so `SupState`
counts the requests. A read through `MSHash` while it is `NULL` is the fault
`Fault.nullDeref`.
-/

set_option autoImplicit false

namespace LsofMount.Supplement

open LsofMount

/-! ## State and environment -/

/-- `mntsup_t`: one mount supplement entry, `next` being its place in the chain. -/
structure MntSup where
  dirName : CStr
  dirNameLen : Nat
  dev : UInt64
  ln : Nat
  deriving DecidableEq, Repr

/-- The `HASHMNT` bucket chains of `MSHash`. -/
abbrev Buckets := Fin HASHMNT → List MntSup

/-- The context's mount supplement state. -/
structure SupState where
  /-- `ctxd.mount_sup_error`. -/
  mountSupError : Bool
  /-- `MSHash`, `none` for `NULL`. -/
  msHash : Option Buckets
  /-- Allocation requests made so far. -/
  allocs : Nat

/-- A fresh context: no error, no table. -/
def SupState.init : SupState := ⟨false, none, 0⟩

/-- What `getmntdev` reads from outside: the options, the file and the system's answers. -/
structure SupEnv where
  /-- `MntSup`: 0 off, 1 print (`+m`), 2 look up (`+m path`). -/
  mntSup : Int
  /-- `MntSupP`, the supplement file's path. -/
  mntSupP : Option CStr
  /-- `is_readable(ctx, MntSupP, 1)`. -/
  readable : Bool
  /-- `open_proc_stream` succeeds. -/
  opens : Bool
  /-- The bytes read before end of file or a read error. -/
  content : List UInt8
  /-- `ferror(fs)` after the read loop. -/
  readError : Bool
  /-- The allocator's answer to the `n`-th request. -/
  alloc : Nat → Bool

/-- Where control goes after a stretch of code: on to the next step, or to `cleanup`. -/
inductive Flow (σ : Type) where
  | next (s : σ)
  | exit (s : σ)

/-- What one `getmntdev` call returns and writes: the result, `*s`, `*ss` and the state. -/
structure SupOut where
  ret : Int
  sb : Stat
  ss : StatBits
  state : SupState

/-! ## Building the table -/

/-- Lines 278-291: the buckets, allocated by `calloc` if `MSHash` is `NULL`; `none` when the
`calloc` fails. -/
def allocBuckets (env : SupEnv) (st : SupState) : Option (Buckets × SupState) :=
  match st.msHash with
  | some tbl => some (tbl, st)
  | none =>
      if env.alloc st.allocs then
        some (fun _ => [], { st with msHash := some (fun _ => []), allocs := st.allocs + 1 })
      else none

/-- Lines 292-297: the chain search for a supplement line's path. It compares the entry's
length with `dir_name_len`, the length of the directory `getmntdev` was called for. -/
def findDup (tbl : Buckets) (dirNameLen : Nat) (path : CStr) : Option MntSup :=
  (tbl (bucketOf path)).find? fun mp => mp.dirNameLen == dirNameLen && mp.dirName == path

/-- Lines 315-346: a new entry for line `ln` is allocated (two requests) and pushed on its
chain. -/
def insertEntry (env : SupEnv) (tbl : Buckets) (st : SupState) (ln : Nat) (path : CStr)
    (dev : UInt64) : Flow SupState :=
  if !env.alloc st.allocs then .exit { st with allocs := st.allocs + 1 }
  else if !env.alloc (st.allocs + 1) then .exit { st with allocs := st.allocs + 2 }
  else
    let h := bucketOf path
    .next { st with
      msHash := some (Function.update tbl h (⟨path, path.length, dev, ln⟩ :: tbl h))
      allocs := st.allocs + 2 }

/-- The body of the read loop (lines 219-346) on the `ln`-th record. -/
def buildStep (env : SupEnv) (dirNameLen ln : Nat) (record : List UInt8) (st : SupState) :
    Flow SupState :=
  match supParse record with
  | .ok path dev =>
      match allocBuckets env st with
      | none => .exit { st with allocs := st.allocs + 1 }
      | some (tbl, st) =>
          match findDup tbl dirNameLen path with
          | some mp => .next (if mp.dev != dev then { st with mountSupError := true } else st)
          | none => insertEntry env tbl st ln path dev
  | _ => .next { st with mountSupError := true }

/-- The read loop of lines 218-347 over the records from line number `ln + 1` on. -/
def buildLoop (env : SupEnv) (dirNameLen : Nat) :
    List (List UInt8) → Nat → SupState → Flow SupState
  | [], _, st => .next st
  | r :: rs, ln, st =>
      match buildStep env dirNameLen (ln + 1) r st with
      | .next st => buildLoop env dirNameLen rs (ln + 1) st
      | .exit st => .exit st

/-- Lines 180-372 when `MSHash` is `NULL`: open and read the file, then drop the table if an
error was seen. `next` goes on to the lookup, `exit` returns `0`. -/
def buildTable (env : SupEnv) (dirNameLen : Nat) (st : SupState) : Flow SupState :=
  if env.mntSup ≠ 2 ∨ env.mntSupP = none then .exit st
  else if !env.readable then .exit { st with mountSupError := true }
  else if !env.opens then .exit { st with mountSupError := true }
  else
    match buildLoop env dirNameLen (fgetsRecords supReadSize [] env.content) 0 st with
    | .exit st => .exit st
    | .next st =>
        let st := if env.readError then { st with mountSupError := true } else st
        if st.mountSupError then .exit { st with msHash := none } else .next st

/-! ## The lookup -/

/-- `getmntdev(ctx, dir_name, dir_name_len, s, ss)`. -/
def getmntdev (env : SupEnv) (st : SupState) (dirName : CStr) (dirNameLen : Nat) (s : Stat)
    (ss : StatBits) : Except Fault SupOut :=
  if st.mountSupError then .ok ⟨0, s, ss, st⟩
  else
    match (if st.msHash.isNone then buildTable env dirNameLen st else .next st) with
    | .exit st => .ok ⟨0, s, ss, st⟩
    | .next st =>
        if st.mountSupError then .ok ⟨0, s, ss, st⟩
        else match st.msHash with
          | none => .error .nullDeref
          | some tbl =>
              match (tbl (bucketOf dirName)).find? fun mp =>
                  dirNameLen == mp.dirNameLen && dirName == mp.dirName with
              | some mp => .ok ⟨1, { Stat.zero with stDev := mp.dev }, { ss with dev := true }, st⟩
              | none => .ok ⟨0, s, ss, st⟩

/-- A caller's request: the directory and the buffers `*s` and `*ss` it passes. -/
structure SupQuery where
  dirName : CStr
  sb : Stat
  ss : StatBits

/-- What a call returns to its caller. -/
def SupOut.answer (o : SupOut) : Int × Stat × StatBits := (o.ret, o.sb, o.ss)

/-- Successive calls `getmntdev(ctx, d, strlen(d), s, ss)` in one context. -/
def runGetmntdev (env : SupEnv) : SupState → List SupQuery → Except Fault (List (Int × Stat × StatBits))
  | _, [] => .ok []
  | st, q :: qs => do
      let o ← getmntdev env st q.dirName q.dirName.length q.sb q.ss
      let rest ← runGetmntdev env o.state qs
      return o.answer :: rest

end LsofMount.Supplement
