import LsofMount.Readmnt.Steps
import LsofMount.Readmnt.Table

/-!
# The mount table cache across calls

A context calls `readmnt` and `clean_mnt` in any order. `Lmi` is meant to be a cache: `NULL`
until a pass over the mount table completes, then that pass's table until `clean_mnt`. The
invariant saying so is `CacheInv`: `Lmi` is not `NULL` only when `Lmist` is set.

It holds in every reachable state as long as no `malloc` of an entry and no `mkstrcpy` fails,
whatever the other calls answer (`reachable_cacheInv`); `clean_mnt` then always empties the
cache (`cleanMnt_empties`). An allocation failure in the loop breaks it: `readmnt` goes to `cleanup` with the entries made
so far still linked from `Lmi` and `Lmist` still `0`. The next `readmnt` returns that partial
table without reading the mount table, and `clean_mnt`, which only acts when `Lmist` is set,
leaves it in place (`readmnt_partial_cache`).
-/

set_option autoImplicit false

namespace LsofMount.Readmnt

open LsofMount

/-- A call of the mount table interface. -/
inductive MntCall where
  | readmnt (src : MountSource)
  | cleanMnt

/-- One call on the context: `readmnt`'s result, `NULL` for `clean_mnt`. -/
def mntCall (cfg : MntConfig) (st : MntState) : MntCall → Except Fault (Option Ptr × MntState)
  | .readmnt src => readmnt cfg src st
  | .cleanMnt => (cleanMnt st).map fun st => (none, st)

/-- The states a context reaches from a fresh one by calls allowed by `ok` that do not
fault. -/
inductive Reachable (cfg : MntConfig) (ok : MntCall → Prop) : MntState → Prop where
  | init : Reachable cfg ok MntState.init
  | call {st st' : MntState} {r : Option Ptr} (c : MntCall) : ok c →
      Reachable cfg ok st → mntCall cfg st c = .ok (r, st') → Reachable cfg ok st'

/-- `Lmi` non-`NULL` implies `Lmist = 1`. -/
def CacheInv (st : MntState) : Prop := st.lmi ≠ none → st.lmist = true

instance (st : MntState) : Decidable (CacheInv st) :=
  inferInstanceAs (Decidable (st.lmi ≠ none → st.lmist = true))

/-- A mount table of `/` and `/home`, `homeAlloc` being the answer of the `malloc` for the
entry of `/home`; every other call succeeds. -/
def rootHome (homeAlloc : Bool) : MountSource :=
  ⟨true,
    [⟨some (lit "/dev/sda1", lit "/", lit "ext4"), true, fun _ => true, true, fun _ => true,
      .link (lit "/"), some Stat.zero, none, true, true, .link (lit "/dev/sda1"), none⟩,
     ⟨some (lit "/dev/sdb1", lit "/home", lit "ext4"), true, fun _ => true, true, fun _ => true,
      .link (lit "/home"), some Stat.zero, none, homeAlloc, true, .link (lit "/dev/sdb1"), none⟩]⟩

/-! ## The invariant when no entry allocation fails -/

/-- A call whose mount source answers every `malloc` of an entry and every `mkstrcpy`. -/
def MntCall.AllocOk : MntCall → Prop
  | .readmnt src => ∀ l ∈ src.lines, l.mntAlloc = true ∧ l.cpyAlloc = true
  | .cleanMnt => True

theorem readmnt_cacheInv {cfg : MntConfig} {src : MountSource} {st st' : MntState}
    {r : Option Ptr} (hsrc : ∀ l ∈ src.lines, l.mntAlloc = true ∧ l.cpyAlloc = true)
    (hinv : CacheInv st) (h : readmnt cfg src st = .ok (r, st')) : CacheInv st' := by
  unfold readmnt at h
  split at h
  · cases h
    exact hinv
  split at h
  · cases h
    exact hinv
  split at h
  · cases h
  · obtain ⟨_, -, h⟩ := bind_eq_ok h
    obtain ⟨-, rfl⟩ := Prod.mk.inj (Except.ok.inj h)
    exact fun _ => rfl
  · next loc st1 hx => exact absurd hx (readmntLoop_ne_exit cfg _ hsrc _ _ _ _)

/-- `clean_mnt` from a state with the invariant empties the cache. -/
theorem cleanMnt_empties {st st' : MntState} (hinv : CacheInv st) (h : cleanMnt st = .ok st') :
    st'.lmi = none ∧ st'.lmist = false := by
  unfold cleanMnt at h
  split at h
  · next hl =>
      cases h
      rw [Bool.not_eq_true', ← Bool.not_eq_true] at hl
      exact ⟨not_not.mp (mt hinv hl), by simpa using hl⟩
  · obtain ⟨_, -, h⟩ := bind_eq_ok h
    cases Except.ok.inj h
    exact ⟨rfl, rfl⟩

theorem mntCall_cacheInv {cfg : MntConfig} {st st' : MntState} {r : Option Ptr} {c : MntCall}
    (hc : c.AllocOk) (hinv : CacheInv st) (h : mntCall cfg st c = .ok (r, st')) :
    CacheInv st' := by
  cases c with
  | readmnt src => exact readmnt_cacheInv hc hinv h
  | cleanMnt =>
      obtain ⟨st'', hcl, h⟩ := bind_eq_ok h
      cases Prod.mk.inj (Except.ok.inj h) |>.2
      exact fun hne => absurd (cleanMnt_empties hinv hcl).1 hne

/-- When no `malloc` of an entry and no `mkstrcpy` fails, `Lmi` is non-`NULL` only once a pass
completed, in every state a context reaches by `readmnt` and `clean_mnt` calls, whatever the
other allocators, `Readlink` and `stat` answer. -/
theorem reachable_cacheInv {cfg : MntConfig} {st : MntState}
    (h : Reachable cfg MntCall.AllocOk st) : CacheInv st := by
  induction h with
  | init => exact fun h => absurd rfl h
  | call c hc _ hcall ih => exact mntCall_cacheInv hc ih hcall

/-- A context after the pass over `/` and `/home` is reachable with a table in `Lmi`, and
keeps the invariant. -/
theorem reachable_cacheInv_rootHome :
    ∃ st, Reachable ⟨[], 0, false⟩ MntCall.AllocOk st ∧ st.lmi ≠ none ∧ CacheInv st := by
  have hr : Reachable ⟨[], 0, false⟩ MntCall.AllocOk _ :=
    .call (.readmnt (rootHome true)) (by simp only [MntCall.AllocOk]; decide) .init rfl
  exact ⟨_, hr, by decide, reachable_cacheInv hr⟩

/-! ## A failed allocation -/

/-- The `malloc` for the entry of `/home` fails. `readmnt` returns `NULL` from `cleanup` and
leaves a reachable state in which `Lmi` holds the entry for `/` while `Lmist` is `0`. Every
later `readmnt` returns this one-entry table, whatever the mount table holds, and `clean_mnt`
leaves it in place. -/
theorem readmnt_partial_cache :
    ∃ st, readmnt ⟨[], 0, false⟩ (rootHome false) MntState.init = .ok (none, st) ∧
      Reachable ⟨[], 0, false⟩ (fun _ => True) st ∧ ¬CacheInv st ∧
      readTable st.heap st.heap.top st.lmi =
        .ok [⟨lit "/", 1, 0, 0, 0, 0, StatBits.all, .reglr, lit "/dev/sda1",
          some (lit "/dev/sda1"), 0⟩] ∧
      (∀ src, readmnt ⟨[], 0, false⟩ src st = .ok (st.lmi, st)) ∧
      cleanMnt st = .ok st :=
  ⟨_, rfl, .call (.readmnt (rootHome false)) trivial .init rfl, by decide, rfl, fun _ => rfl, rfl⟩

end LsofMount.Readmnt
