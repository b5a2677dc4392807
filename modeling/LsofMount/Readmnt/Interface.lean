import LsofMount.Readmnt.CleanMnt

/-!
# The mount table interface as a cache of one pass

What `readmnt` and `clean_mnt` are for, stated on its own (`cacheCall`): the context holds no
table, or the table of one completed pass over the mount table. `readmnt` with no table reads
the mount table and keeps the table `specTable` gives for its records, or returns an empty
table and keeps nothing when the mount table cannot be opened; with a table it returns that
table, whatever the mount table holds now. `clean_mnt` drops the table.

`Caches st A` relates a context to the abstract cache `A`: with no table, `Lmi` is `NULL` and
`Lmist` is `0`; with the table `T`, `Lmist` is `1` and the chain from `Lmi` is a chain of
nodes with distinct directories whose entries are `T`. Both keep the store well formed.

The refinement holds for the calls that do not fault and whose passes get every entry
allocation and name copy and miss at their last duplicate search (`MntCall.Good`): an
allocation failure leaves a partial table behind, and a last search that matches releases a
table entry at `cleanup`.

## What this module proves

- `mntCall_refines`: a call from a context that holds `A` leads to one that holds the
  abstract cache after the call, and returns a pointer that reads as the abstract answer.
- `mntRun_caches`: over every sequence of calls, the context holds the abstract cache of the
  same calls.
- `mntRun_refines`: after any sequence of calls from a fresh context, the next call answers
  what the abstract cache answers.
-/

set_option autoImplicit false

namespace LsofMount.Readmnt

open LsofMount

/-- One call on the abstract cache: the table the caller reads and the cache after it. -/
def cacheCall (cfg : MntConfig) :
    Option (List MountEntry) → MntCall → List MountEntry × Option (List MountEntry)
  | some T, .readmnt _ => (T, some T)
  | none, .readmnt src =>
      if src.opens then (specTable cfg src.lines, some (specTable cfg src.lines)) else ([], none)
  | _, .cleanMnt => ([], none)

/-- The abstract cache after the calls `cs`, from `A`. -/
def cacheRun (cfg : MntConfig) (A : Option (List MountEntry)) (cs : List MntCall) :
    Option (List MountEntry) :=
  cs.foldl (fun A c => (cacheCall cfg A c).2) A

/-- The calls `cs` in turn on the context, stopping at the first fault. -/
def mntRun (cfg : MntConfig) (st : MntState) : List MntCall → Except Fault MntState
  | [] => .ok st
  | c :: cs => (mntCall cfg st c).bind fun r => mntRun cfg r.2 cs

/-- The context holds the abstract cache. -/
def Caches (st : MntState) : Option (List MountEntry) → Prop
  | none => st.heap.WF ∧ st.lmi = none ∧ st.lmist = false
  | some T => st.lmist = true ∧ ∃ N, StoreInv st.heap st.lmi N ∧ N.map (·.2.2) = T

/-- A call whose pass, if it makes one, gets every entry allocation and name copy and misses at
its last duplicate search. -/
def MntCall.Good (cfg : MntConfig) : MntCall → Prop
  | .readmnt src =>
      (∀ l ∈ src.lines, l.mntAlloc = true ∧ l.cpyAlloc = true) ∧ lastHit cfg src.lines = false
  | .cleanMnt => True

theorem caches_init : Caches MntState.init none := ⟨Heap.WF.empty, rfl, rfl⟩

theorem cacheRun_append_singleton (cfg : MntConfig) (A : Option (List MountEntry))
    (cs : List MntCall) (c : MntCall) :
    cacheRun cfg A (cs ++ [c]) = (cacheCall cfg (cacheRun cfg A cs) c).2 := by
  simp [cacheRun]

@[simp] theorem readTable_none (h : Heap) (n : Nat) : readTable h n none = .ok [] := by
  cases n <;> rfl

/-! ## One call -/

section Call

variable {cfg : MntConfig} {st st' : MntState} {r : Option Ptr}

theorem readmnt_of_cached {src : MountSource} (hst : st.lmist = true)
    (h : readmnt cfg src st = .ok (r, st')) : r = st.lmi ∧ st' = st := by
  rw [readmnt, if_pos (by simp [hst])] at h
  cases h
  exact ⟨rfl, rfl⟩

theorem readmnt_of_closed {src : MountSource} (hl : st.lmi = none) (hst : st.lmist = false)
    (ho : src.opens = false) (h : readmnt cfg src st = .ok (r, st')) : r = none ∧ st' = st := by
  rw [readmnt, if_neg (by simp [hl, hst]), if_pos (by simp [ho])] at h
  cases h
  exact ⟨rfl, rfl⟩

theorem mntCall_refines {c : MntCall} {A : Option (List MountEntry)} (hA : Caches st A)
    (hc : c.Good cfg) (h : mntCall cfg st c = .ok (r, st')) :
    Caches st' (cacheCall cfg A c).2 ∧
      readTable st'.heap st'.heap.top r = .ok (cacheCall cfg A c).1 := by
  cases c with
  | readmnt src =>
      cases A with
      | some T =>
          -- a cached table is returned as it is
          obtain ⟨hst, N, hs, hT⟩ := hA
          obtain ⟨rfl, rfl⟩ := readmnt_of_cached hst h
          exact ⟨⟨hst, N, hs, hT⟩, by rw [hs.chain.readTable_eq _ hs.len, hT]; rfl⟩
      | none =>
          obtain ⟨hwf, hl, hst⟩ := hA
          cases ho : src.opens with
          | false =>
              obtain ⟨rfl, rfl⟩ := readmnt_of_closed hl hst ho h
              simp only [cacheCall, ho, Bool.false_eq_true, if_false]
              exact ⟨⟨hwf, hl, hst⟩, readTable_none _ _⟩
          | true =>
              -- a pass over the mount table
              obtain ⟨hst', hr, N, hs, hT⟩ := readmnt_store hl hst hwf ho hc.1 hc.2 h
              simp only [cacheCall, ho, if_true]
              refine ⟨⟨hst', N, hs, hT⟩, ?_⟩
              rw [← hr, hs.chain.readTable_eq _ hs.len, hT]
  | cleanMnt =>
      obtain ⟨st'', hcl, h⟩ := bind_eq_ok h
      cases h
      have hans : cacheCall cfg A .cleanMnt = ([], none) := by cases A <;> rfl
      refine hans ▸ ⟨?_, readTable_none _ _⟩
      cases A with
      | none =>
          obtain ⟨hwf, hl, hst⟩ := hA
          rw [cleanMnt, hst] at hcl
          cases hcl
          exact ⟨hwf, hl, hst⟩
      | some T =>
          obtain ⟨hst, N, hs, -⟩ := hA
          simp only [cleanMnt, hst, Bool.not_true, Bool.false_eq_true, if_false] at hcl
          obtain ⟨h', hf, hcl⟩ := bind_eq_ok hcl
          cases hcl
          exact ⟨hs.wf.freeMounts hf, rfl, rfl⟩

end Call

/-! ## Every sequence of calls -/

theorem mntRun_caches {cfg : MntConfig} (cs : List MntCall) :
    ∀ {st st' : MntState} {A : Option (List MountEntry)}, Caches st A →
      (∀ c ∈ cs, c.Good cfg) → mntRun cfg st cs = .ok st' → Caches st' (cacheRun cfg A cs) := by
  induction cs with
  | nil =>
      intro st st' A hA _ h
      cases h
      exact hA
  | cons c cs ih =>
      intro st st' A hA hcs h
      obtain ⟨⟨r, st1⟩, hcall, h⟩ := bind_eq_ok h
      exact ih (mntCall_refines hA (hcs c (.head _)) hcall).1
        (fun c' hc' => hcs c' (.tail _ hc')) h

/-- After any sequence of calls from a fresh context, each returning without a fault and each
pass getting its allocations and missing at its last duplicate search, the next such call
returns a table that reads as the abstract cache's answer, and the context holds the abstract
cache of all the calls. -/
theorem mntRun_refines (cfg : MntConfig) (cs : List MntCall) (hcs : ∀ c ∈ cs, c.Good cfg)
    {st : MntState} (h : mntRun cfg MntState.init cs = .ok st) (c : MntCall) (hc : c.Good cfg)
    {r : Option Ptr} {st' : MntState} (hcall : mntCall cfg st c = .ok (r, st')) :
    readTable st'.heap st'.heap.top r = .ok (cacheCall cfg (cacheRun cfg none cs) c).1 ∧
      Caches st' (cacheRun cfg none (cs ++ [c])) := by
  have hstep := mntCall_refines (mntRun_caches cs caches_init hcs h) hc hcall
  rw [cacheRun_append_singleton]
  exact ⟨hstep.2, hstep.1⟩

/-- After the pass over `/` and `/home`, a `readmnt` on a mount table with no records returns
the table of the first pass. -/
theorem mntRun_refines_rootHome :
    (∀ c ∈ [MntCall.readmnt (rootHome true)], c.Good ⟨[], 0, false⟩) ∧
      (MntCall.readmnt ⟨true, []⟩).Good ⟨[], 0, false⟩ ∧
      ∃ st r st', mntRun ⟨[], 0, false⟩ MntState.init [.readmnt (rootHome true)] = .ok st ∧
        mntCall ⟨[], 0, false⟩ st (.readmnt ⟨true, []⟩) = .ok (r, st') ∧
        readTable st'.heap st'.heap.top r = .ok (cacheCall ⟨[], 0, false⟩
          (cacheRun ⟨[], 0, false⟩ none [.readmnt (rootHome true)]) (.readmnt ⟨true, []⟩)).1 ∧
        Caches st' (cacheRun ⟨[], 0, false⟩ none
          ([.readmnt (rootHome true)] ++ [.readmnt ⟨true, []⟩])) := by
  have hcs : ∀ c ∈ [MntCall.readmnt (rootHome true)], c.Good ⟨[], 0, false⟩ := fun c hc => by
    rw [List.mem_singleton.mp hc]
    exact ⟨by decide, by decide⟩
  have hc : (MntCall.readmnt ⟨true, []⟩).Good ⟨[], 0, false⟩ := ⟨by decide, rfl⟩
  exact ⟨hcs, hc, _, _, _, rfl, rfl, mntRun_refines _ _ hcs rfl _ hc rfl⟩

end LsofMount.Readmnt
