import LsofMount.Basic
import Mathlib.Logic.Function.Basic

/-!
# The store `readmnt` allocates from

`readmnt` and `clean_mnt` (`dmnt.c`, lines 423-771) hold strings and `struct mounts` records
through pointers. The store maps every id handed out so far to its object while it is live;
a released id maps to nothing and is never handed out again, since the allocation frontier
`top` only grows. Freeing an id that is not live is the fault `Fault.doubleFree`, reading one
is `Fault.useAfterFree`, and reading through `NULL` is `Fault.nullDeref`.
-/

set_option autoImplicit false

namespace LsofMount.Readmnt

open LsofMount

/-- An object id; `NULL` is `none : Option Ptr`. -/
abbrev Ptr := Nat

/-- The type tag `ty` of a mount entry: `N_REGLR`, `N_NFS` or `N_MQUEUE`. -/
inductive MntType where
  | reglr
  | nfs
  | mqueue
  deriving DecidableEq, Repr

/-- `struct mounts`: one mount table entry, its strings and successor by pointer. -/
structure Mounts where
  dir : Option Ptr
  dirl : Nat
  dev : UInt64
  rdev : UInt64
  inode : UInt64
  mode : UInt32
  ds : StatBits
  ty : MntType
  fsname : Option Ptr
  fsnmres : Option Ptr
  fsMode : UInt32
  next : Option Ptr
  deriving DecidableEq, Repr

/-- The contents of a freshly `malloc`ed entry, before `readmnt` writes its fields. -/
def Mounts.blank : Mounts :=
  ⟨none, 0, 0, 0, 0, 0, StatBits.none, .reglr, none, none, 0, none⟩

/-- A heap object: a string buffer or a mount entry. -/
inductive Obj where
  | str (s : List UInt8)
  | mnt (m : Mounts)
  deriving DecidableEq, Repr

/-- The store: the live objects, and the first id never handed out. -/
structure Heap where
  mem : Ptr → Option Obj
  top : Nat

/-- The store before any allocation. -/
def Heap.empty : Heap := ⟨fun _ => none, 0⟩

/-- A `malloc` that succeeds: a fresh id, holding `o`. -/
def Heap.alloc (h : Heap) (o : Obj) : Ptr × Heap :=
  (h.top, ⟨Function.update h.mem h.top (some o), h.top + 1⟩)

/-- `free(p)` for a pointer that is not `NULL`. -/
def Heap.free (h : Heap) (p : Ptr) : Except Fault Heap :=
  match h.mem p with
  | some _ => .ok ⟨Function.update h.mem p none, h.top⟩
  | none => .error (.doubleFree p)

/-- `CLEAN(p)`: `free(p)` when `p` is not `NULL`. -/
def Heap.clean (h : Heap) : Option Ptr → Except Fault Heap
  | none => .ok h
  | some p => h.free p

/-- The C string at `p`: its buffer up to the first NUL. -/
def Heap.readStr (h : Heap) : Option Ptr → Except Fault CStr
  | none => .error .nullDeref
  | some p =>
      match h.mem p with
      | some (.str s) => .ok (cView s)
      | _ => .error (.useAfterFree p)

/-- The mount entry at `p`. -/
def Heap.readMnt (h : Heap) (p : Ptr) : Except Fault Mounts :=
  match h.mem p with
  | some (.mnt m) => .ok m
  | _ => .error (.useAfterFree p)

/-- Overwrite the live mount entry at `p`. -/
def Heap.writeMnt (h : Heap) (p : Ptr) (m : Mounts) : Except Fault Heap :=
  match h.mem p with
  | some (.mnt _) => .ok ⟨Function.update h.mem p (some (.mnt m)), h.top⟩
  | _ => .error (.useAfterFree p)

/-- An id that holds an object. -/
def Heap.Live (h : Heap) (p : Ptr) : Prop := h.mem p ≠ none

instance (h : Heap) (p : Ptr) : Decidable (h.Live p) :=
  inferInstanceAs (Decidable (h.mem p ≠ none))

/-! ## What each operation does to the store -/

section Ops

variable {h h' : Heap} {p q : Ptr}

@[simp] theorem Heap.alloc_fst (h : Heap) (o : Obj) : (h.alloc o).1 = h.top := rfl

@[simp] theorem Heap.alloc_top (h : Heap) (o : Obj) : (h.alloc o).2.top = h.top + 1 := rfl

@[simp] theorem Heap.alloc_mem_self (h : Heap) (o : Obj) :
    (h.alloc o).2.mem h.top = some o := by
  simp [Heap.alloc]

theorem Heap.alloc_mem_of_ne (h : Heap) (o : Obj) (hq : q ≠ h.top) :
    (h.alloc o).2.mem q = h.mem q := by
  simp [Heap.alloc, Function.update_apply, hq]

theorem Heap.free_eq (hf : h.free p = .ok h') :
    h.mem p ≠ none ∧ h' = ⟨Function.update h.mem p none, h.top⟩ := by
  unfold Heap.free at hf
  split at hf
  · next o ho => exact ⟨by simp [ho], (Except.ok.inj hf).symm⟩
  · exact absurd hf (by simp)

theorem Heap.free_mem_of_ne (hf : h.free p = .ok h') (hq : q ≠ p) : h'.mem q = h.mem q := by
  rw [(Heap.free_eq hf).2]
  simp [Function.update_apply, hq]

theorem Heap.free_top (hf : h.free p = .ok h') : h'.top = h.top := by
  rw [(Heap.free_eq hf).2]

theorem Heap.clean_mem_of_ne {o : Option Ptr} (hc : h.clean o = .ok h')
    (hq : ∀ x, o = some x → q ≠ x) : h'.mem q = h.mem q := by
  cases o with
  | none => cases hc; rfl
  | some x => exact Heap.free_mem_of_ne hc (hq x rfl)

theorem Heap.clean_mem_of_not_mem {o : Option Ptr} (hc : h.clean o = .ok h') (hq : q ∉ o.toList) :
    h'.mem q = h.mem q :=
  Heap.clean_mem_of_ne hc fun x hx hqx => hq (by simp [hx, hqx])

theorem Heap.clean_top {o : Option Ptr} (hc : h.clean o = .ok h') : h'.top = h.top := by
  cases o with
  | none => cases hc; rfl
  | some x => exact Heap.free_top hc

theorem Heap.writeMnt_eq {m : Mounts} (hw : h.writeMnt p m = .ok h') :
    (∃ m0, h.mem p = some (.mnt m0)) ∧
      h' = ⟨Function.update h.mem p (some (.mnt m)), h.top⟩ := by
  unfold Heap.writeMnt at hw
  split at hw
  · next m0 hm => exact ⟨⟨m0, hm⟩, (Except.ok.inj hw).symm⟩
  · exact absurd hw (by simp)

theorem Heap.writeMnt_mem_of_ne {m : Mounts} (hw : h.writeMnt p m = .ok h') (hq : q ≠ p) :
    h'.mem q = h.mem q := by
  rw [(Heap.writeMnt_eq hw).2]
  simp [Function.update_apply, hq]

theorem Heap.writeMnt_mem_self {m : Mounts} (hw : h.writeMnt p m = .ok h') :
    h'.mem p = some (.mnt m) := by
  rw [(Heap.writeMnt_eq hw).2]
  simp

theorem Heap.writeMnt_top {m : Mounts} (hw : h.writeMnt p m = .ok h') : h'.top = h.top := by
  rw [(Heap.writeMnt_eq hw).2]

theorem Heap.readStr_congr (hq : h'.mem q = h.mem q) :
    h'.readStr (some q) = h.readStr (some q) := by
  simp only [Heap.readStr, hq]

theorem Heap.readStr_of_mem {s : List UInt8} (hm : h.mem p = some (.str s)) :
    h.readStr (some p) = .ok (cView s) := by
  simp [Heap.readStr, hm]

theorem Heap.readMnt_of_mem {m : Mounts} (hm : h.mem p = some (.mnt m)) : h.readMnt p = .ok m := by
  simp [Heap.readMnt, hm]

theorem Heap.readMnt_eq {m : Mounts} (hr : h.readMnt p = .ok m) : h.mem p = some (.mnt m) := by
  unfold Heap.readMnt at hr
  split at hr
  · next m0 hm => rw [hm, Except.ok.inj hr]
  · exact absurd hr (by simp)

end Ops

/-! ## Live objects lie below the frontier -/

/-- Every live object has an id below the allocation frontier, so an allocation never hands
out the id of a live object. -/
def Heap.WF (h : Heap) : Prop := ∀ q, h.mem q ≠ none → q < h.top

section WF

variable {h h' : Heap} {p : Ptr}

theorem Heap.WF.empty : Heap.empty.WF := fun _ hq => absurd rfl hq

theorem Heap.WF.alloc (hw : h.WF) (o : Obj) : (h.alloc o).2.WF := by
  intro q hq
  rw [Heap.alloc_top]
  by_cases hqt : q = h.top
  · exact hqt ▸ Nat.lt_succ_self _
  · rw [Heap.alloc_mem_of_ne h o hqt] at hq
    exact Nat.lt_succ_of_lt (hw q hq)

theorem Heap.WF.free (hw : h.WF) (hf : h.free p = .ok h') : h'.WF := by
  intro q hq
  rw [Heap.free_top hf]
  by_cases hqp : q = p
  · subst hqp
    rw [(Heap.free_eq hf).2] at hq
    simp at hq
  · exact hw q (by rwa [Heap.free_mem_of_ne hf hqp] at hq)

theorem Heap.WF.clean {o : Option Ptr} (hw : h.WF) (hc : h.clean o = .ok h') : h'.WF := by
  cases o with
  | none => cases hc; exact hw
  | some x => exact hw.free hc

theorem Heap.WF.writeMnt {m : Mounts} (hw : h.WF) (hwr : h.writeMnt p m = .ok h') : h'.WF := by
  obtain ⟨⟨m0, hm0⟩, rfl⟩ := Heap.writeMnt_eq hwr
  intro q hq
  by_cases hqp : q = p
  · subst hqp
    exact hw q (by simp [hm0])
  · exact hw q (by simpa [Function.update_apply, hqp] using hq)

theorem Heap.WF.lt_top (hw : h.WF) {q : Ptr} {o : Obj} (hq : h.mem q = some o) : q < h.top :=
  hw q (by simp [hq])

end WF

end LsofMount.Readmnt
