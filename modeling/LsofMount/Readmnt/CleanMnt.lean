import LsofMount.Readmnt.Refine

/-!
# `clean_mnt` releases the table

`clean_mnt` (lines 751-771) walks the chain from `Lmi` and releases, record by record, the
directory, the file system name, its resolved form and the record itself. The walk is studied
on any chain of records that ends in `NULL` (`Linked`), with nothing assumed of what the
records point to: it completes exactly when no object is held twice, by two fields of one
record or by two records, and the store it leaves is the old one with exactly the chain's
objects released.

`readmnt` stores `Readlink`'s answer for the file system name in `fsnmres` beside the name
itself (lines 714, 721 and 723). When `Readlink` returns its argument, as it does for a path
without a symbolic link, the two fields hold one object, and `clean_mnt` releases it twice
(`cleanMnt_eq_ok_iff_sharedName`).

## What this module proves

- `Heap.freeAll_eq_ok_iff`: releasing ids one after another completes exactly when they are
  distinct and live, and then releases exactly them.
- `Linked.nodup`, `Linked.length_le`: a chain never comes back to a record, so in a well
  formed store the walk's fuel suffices.
- `freeMounts_eq_ok_iff`: the walk of lines 761-768 completes exactly when the chain's objects
  are distinct and live, and releases exactly them.
- `cleanMnt_eq_ok_iff`: `clean_mnt` after a completed pass completes exactly when the table's
  objects are distinct and live; it then releases exactly them and clears `Lmi` and `Lmist`.
- `Heap.WF.freeMounts`: the walk keeps the store well formed, whatever it meets.
-/

set_option autoImplicit false

namespace LsofMount.Readmnt

open LsofMount

/-- The store with the objects `xs` released. -/
def Heap.releaseAll (h : Heap) (xs : List Ptr) : Heap :=
  ⟨fun q => if q ∈ xs then none else h.mem q, h.top⟩

/-- `free` of the ids `xs` one after another, stopping at the first fault. -/
def Heap.freeAll (h : Heap) : List Ptr → Except Fault Heap
  | [] => .ok h
  | x :: xs => do
      let h ← h.free x
      h.freeAll xs

/-! ## Releasing a list of objects -/

section Release

variable {h h' : Heap} {p : Ptr}

@[simp] theorem Heap.releaseAll_top (h : Heap) (xs : List Ptr) : (h.releaseAll xs).top = h.top :=
  rfl

theorem Heap.releaseAll_mem (h : Heap) (xs : List Ptr) (q : Ptr) :
    (h.releaseAll xs).mem q = if q ∈ xs then none else h.mem q :=
  rfl

@[simp] theorem Heap.releaseAll_nil (h : Heap) : h.releaseAll [] = h := by
  cases h
  simp [Heap.releaseAll]

theorem Heap.releaseAll_append (h : Heap) (xs ys : List Ptr) :
    (h.releaseAll xs).releaseAll ys = h.releaseAll (xs ++ ys) := by
  simp only [Heap.releaseAll, List.mem_append, Heap.mk.injEq, and_true]
  funext q
  by_cases hx : q ∈ xs <;> by_cases hy : q ∈ ys <;> simp [hx, hy]

theorem Heap.releaseAll_congr {xs ys : List Ptr} (hxy : ∀ q, q ∈ xs ↔ q ∈ ys) :
    h.releaseAll xs = h.releaseAll ys := by
  simp only [Heap.releaseAll, hxy]

theorem Heap.free_eq_ok_iff : h.free p = .ok h' ↔ h.mem p ≠ none ∧ h' = h.releaseAll [p] := by
  have hrel : (⟨Function.update h.mem p none, h.top⟩ : Heap) = h.releaseAll [p] := by
    simp only [Heap.releaseAll, List.mem_singleton, Heap.mk.injEq, and_true]
    funext q
    by_cases hq : q = p <;> simp [Function.update_apply, hq]
  unfold Heap.free
  split
  · next o ho => simp [ho, hrel, eq_comm]
  · next ho => simp [ho]

theorem Heap.freeAll_eq_ok_iff (h : Heap) (xs : List Ptr) (h' : Heap) :
    h.freeAll xs = .ok h' ↔ (xs.Nodup ∧ ∀ x ∈ xs, h.mem x ≠ none) ∧ h' = h.releaseAll xs := by
  induction xs generalizing h with
  | nil => simp [Heap.freeAll, eq_comm]
  | cons x xs ih =>
      have hmem : ∀ y, (h.releaseAll [x]).mem y ≠ none ↔ y ≠ x ∧ h.mem y ≠ none := fun y => by
        by_cases hy : y = x <;> simp [Heap.releaseAll, hy]
      simp only [Heap.freeAll, bind_eq_ok_iff, Heap.free_eq_ok_iff, ih]
      constructor
      · rintro ⟨_, ⟨hx, rfl⟩, ⟨hnd, hall⟩, rfl⟩
        refine ⟨⟨List.nodup_cons.mpr ⟨fun hm => ((hmem x).mp (hall x hm)).1 rfl, hnd⟩, ?_⟩,
          Heap.releaseAll_append h [x] xs⟩
        exact List.forall_mem_cons.mpr ⟨hx, fun y hy => ((hmem y).mp (hall y hy)).2⟩
      · rintro ⟨⟨hnd, hall⟩, rfl⟩
        obtain ⟨hnx, hnd⟩ := List.nodup_cons.mp hnd
        obtain ⟨hx, hall⟩ := List.forall_mem_cons.mp hall
        exact ⟨_, ⟨hx, rfl⟩, ⟨hnd, fun y hy => (hmem y).mpr ⟨fun e => hnx (e ▸ hy), hall y hy⟩⟩,
          (Heap.releaseAll_append h [x] xs).symm⟩

theorem Heap.freeAll_append (h : Heap) (xs ys : List Ptr) :
    h.freeAll (xs ++ ys) = h.freeAll xs >>= fun h => h.freeAll ys := by
  induction xs generalizing h with
  | nil => rfl
  | cons x xs ih =>
      show (h.free x >>= fun h => h.freeAll (xs ++ ys)) =
        (h.free x >>= fun h => h.freeAll xs) >>= fun h => h.freeAll ys
      simp only [ih, bind_assoc]

theorem Heap.freeAll_singleton (h : Heap) (p : Ptr) : h.freeAll [p] = h.free p := by
  show h.free p >>= Except.ok = _
  cases h.free p <;> rfl

theorem Heap.clean_eq_freeAll (h : Heap) (o : Option Ptr) : h.clean o = h.freeAll o.toList := by
  cases o with
  | none => rfl
  | some x => exact (Heap.freeAll_singleton h x).symm

end Release

/-! ## The chain as `clean_mnt` walks it -/

/-- The records reached from `p` by `next` in the store `h`: each a live `struct mounts`, the
last one's `next` being `NULL`. Nothing is assumed of the strings they point to, nor that two
records share none. -/
inductive Linked (h : Heap) : Option Ptr → List (Ptr × Mounts) → Prop where
  | nil : Linked h none []
  | cons {p : Ptr} {m : Mounts} {M : List (Ptr × Mounts)} :
      h.mem p = some (.mnt m) → Linked h m.next M → Linked h (some p) ((p, m) :: M)

/-- The objects of a list of records: each record and the strings it points to. -/
def recordObjs (M : List (Ptr × Mounts)) : List Ptr := M.flatMap fun n => nodeObjs n.1 n.2

@[simp] theorem recordObjs_nil : recordObjs [] = [] := rfl

@[simp] theorem recordObjs_cons (n : Ptr × Mounts) (M : List (Ptr × Mounts)) :
    recordObjs (n :: M) = nodeObjs n.1 n.2 ++ recordObjs M := rfl

section Linked

variable {h : Heap} {p : Option Ptr} {M : List (Ptr × Mounts)}

theorem Linked.unique {M' : List (Ptr × Mounts)} (hM : Linked h p M) (hM' : Linked h p M') :
    M = M' := by
  induction hM generalizing M' with
  | nil => cases hM'; rfl
  | @cons q m M hq _ ih =>
      cases hM' with
      | cons hq' hrest =>
          cases Obj.mnt.inj (Option.some.inj (hq.symm.trans hq'))
          rw [ih hrest]

theorem Linked.mem (hM : Linked h p M) {q : Ptr} {m : Mounts} (hq : (q, m) ∈ M) :
    h.mem q = some (.mnt m) ∧ ∃ M', Linked h (some q) M' ∧ M'.length ≤ M.length := by
  induction hM with
  | nil => cases hq
  | @cons p m0 M hp hrest ih =>
      rcases List.mem_cons.mp hq with he | hq
      · cases he
        exact ⟨hp, _, .cons hp hrest, le_rfl⟩
      · obtain ⟨hm, M', h1, h2⟩ := ih hq
        exact ⟨hm, M', h1, by simp only [List.length_cons]; omega⟩

/-- A chain that ends in `NULL` never comes back to a record. -/
theorem Linked.nodup (hM : Linked h p M) : (M.map Prod.fst).Nodup := by
  induction hM with
  | nil => exact List.nodup_nil
  | @cons q m M hq hrest ih =>
      refine List.nodup_cons.mpr ⟨fun hin => ?_, ih⟩
      obtain ⟨⟨q', m'⟩, hmem, rfl⟩ := List.mem_map.mp hin
      obtain ⟨-, M', h1, h2⟩ := hrest.mem hmem
      cases Linked.unique h1 (.cons hq hrest)
      simp only [List.length_cons] at h2
      omega

/-- In a well formed store a chain has no more records than ids handed out, so the walk's fuel
suffices. -/
theorem Linked.length_le (hw : h.WF) (hM : Linked h p M) : M.length ≤ h.top := by
  have hsub : M.map Prod.fst ⊆ List.range h.top := fun q hq => by
    obtain ⟨⟨q, m⟩, hmem, rfl⟩ := List.mem_map.mp hq
    exact List.mem_range.mpr (hw.lt_top (hM.mem hmem).1)
  simpa using (hM.nodup.subperm hsub).length_le

end Linked

/-! ## The walk of `clean_mnt` -/

/-- One turn of the walk releases the node's strings and then the node. -/
theorem freeMounts_succ {h : Heap} {p : Ptr} {m : Mounts} (hp : h.mem p = some (.mnt m))
    (n : Nat) :
    freeMounts h (n + 1) (some p) =
      h.freeAll (m.dir.toList ++ m.fsname.toList ++ m.fsnmres.toList ++ [p]) >>= fun h =>
        freeMounts h n m.next := by
  simp only [freeMounts, Heap.readMnt_of_mem hp, Heap.clean_eq_freeAll, ← Heap.freeAll_singleton,
    Heap.freeAll_append, bind_assoc]
  rfl

theorem Heap.releaseAll_mem_ne_none (h : Heap) (xs : List Ptr) (y : Ptr) :
    (h.releaseAll xs).mem y ≠ none ↔ y ∉ xs ∧ h.mem y ≠ none := by
  by_cases hy : y ∈ xs <;> simp [Heap.releaseAll, hy]

/-- Releasing `ys` in a store where `xs` are already released. -/
theorem Heap.freeAll_releaseAll_eq_ok_iff (h : Heap) (xs ys : List Ptr) (h' : Heap) :
    (h.releaseAll xs).freeAll ys = .ok h' ↔
      (ys.Nodup ∧ ∀ y ∈ ys, y ∉ xs ∧ h.mem y ≠ none) ∧ h' = h.releaseAll (xs ++ ys) := by
  simp only [Heap.freeAll_eq_ok_iff, Heap.releaseAll_append, Heap.releaseAll_mem_ne_none]

/-- Whether a release completes, and the store it leaves, do not depend on the order. -/
theorem Heap.freeAll_perm_eq_ok_iff {h h' : Heap} {xs ys : List Ptr} (hp : xs.Perm ys) :
    h.freeAll xs = .ok h' ↔ h.freeAll ys = .ok h' := by
  simp only [Heap.freeAll_eq_ok_iff, hp.nodup_iff, hp.mem_iff,
    Heap.releaseAll_congr fun _ => hp.mem_iff]

/-- Objects `a ++ b` are distinct, none of `xs` and all `P` exactly when `a` are, and then `b`
are, with `a` added to `xs`. -/
theorem fresh_append {xs a b : List Ptr} {P : Ptr → Prop} :
    ((a ++ b).Nodup ∧ ∀ y ∈ a ++ b, y ∉ xs ∧ P y) ↔
      (a.Nodup ∧ ∀ y ∈ a, y ∉ xs ∧ P y) ∧ b.Nodup ∧ ∀ y ∈ b, y ∉ xs ++ a ∧ P y := by
  simp only [List.nodup_append, List.mem_append, List.Disjoint, not_or, or_imp, forall_and]
  constructor
  · rintro ⟨⟨ha, hb, hd⟩, ⟨hxa, hxb⟩, hpa, hpb⟩
    exact ⟨⟨ha, hxa, hpa⟩, hb, ⟨hxb, fun y hyb hya => hd hya hyb⟩, hpb⟩
  · rintro ⟨⟨ha, hxa, hpa⟩, hb, ⟨hxb, hab⟩, hpb⟩
    exact ⟨⟨ha, hb, fun y hya hyb => hab y hyb hya⟩, ⟨hxa, hxb⟩, hpa, hpb⟩

/-- The walk from a store in which the objects `xs` are already released: it completes
exactly when the chain's objects are distinct, live and none of `xs`, and then releases them
too. -/
theorem freeMounts_releaseAll {h : Heap} {M : List (Ptr × Mounts)} :
    ∀ {p : Option Ptr} {n : Nat}, Linked h p M → M.length ≤ n → ∀ (xs : List Ptr) (h' : Heap),
      freeMounts (h.releaseAll xs) n p = .ok h' ↔
        ((recordObjs M).Nodup ∧ ∀ x ∈ recordObjs M, x ∉ xs ∧ h.mem x ≠ none) ∧
          h' = h.releaseAll (xs ++ recordObjs M) := by
  induction M with
  | nil =>
      intro p n hc _ xs h'
      cases hc
      cases n <;> simp [freeMounts, eq_comm]
  | cons node M ih =>
      intro p n hc hn xs h'
      cases hc with
      | @cons q m _ hq hrest =>
      obtain ⟨n, rfl⟩ : ∃ k, n = k + 1 := ⟨n - 1, by simp at hn; omega⟩
      by_cases hqx : q ∈ xs
      · -- the record itself was released: reading it faults
        have hread : freeMounts (h.releaseAll xs) (n + 1) (some q) = .error (.useAfterFree q) := by
          simp only [freeMounts, Heap.readMnt, Heap.releaseAll_mem, if_pos hqx]
          rfl
        rw [hread]
        exact ⟨nofun, fun ⟨⟨_, hall⟩, _⟩ => ((hall q (by simp [nodeObjs])).1 hqx).elim⟩
      · -- the record's objects go in another order than `nodeObjs` lists them
        have hq' : (h.releaseAll xs).mem q = some (.mnt m) := by
          rw [Heap.releaseAll_mem, if_neg hqx, hq]
        have hperm : (m.dir.toList ++ m.fsname.toList ++ m.fsnmres.toList ++ [q]).Perm
            (nodeObjs q m) := List.perm_append_singleton _ _
        rw [freeMounts_succ hq', bind_eq_ok_iff]
        simp only [Heap.freeAll_perm_eq_ok_iff hperm]
        simp only [Heap.freeAll_releaseAll_eq_ok_iff, and_assoc, exists_and_left, exists_eq_left,
          ih hrest (by simpa using hn), recordObjs_cons, fresh_append, List.append_assoc]

/-- On a chain with fuel for each record, the walk completes exactly when the chain's objects
are distinct and live, and then releases exactly them. -/
theorem freeMounts_eq_ok_iff {h : Heap} {p : Option Ptr} {M : List (Ptr × Mounts)} {n : Nat}
    (hc : Linked h p M) (hn : M.length ≤ n) (h' : Heap) :
    freeMounts h n p = .ok h' ↔ ((recordObjs M).Nodup ∧ ∀ x ∈ recordObjs M, h.mem x ≠ none) ∧
      h' = h.releaseAll (recordObjs M) := by
  simpa using freeMounts_releaseAll hc hn [] h'

/-- The walk keeps the store well formed, whatever the chain holds. -/
theorem Heap.WF.freeMounts {h h' : Heap} (hw : h.WF) {n : Nat} {p : Option Ptr}
    (hf : freeMounts h n p = .ok h') : h'.WF := by
  induction n generalizing h p with
  | zero => cases p <;> exact (Except.ok.inj hf) ▸ hw
  | succ n ih =>
      cases p with
      | none => exact (Except.ok.inj hf) ▸ hw
      | some p =>
          obtain ⟨m, -, hf⟩ := bind_eq_ok hf
          obtain ⟨h1, hc1, hf⟩ := bind_eq_ok hf
          obtain ⟨h2, hc2, hf⟩ := bind_eq_ok hf
          obtain ⟨h3, hc3, hf⟩ := bind_eq_ok hf
          obtain ⟨h4, hc4, hf⟩ := bind_eq_ok hf
          exact ih ((((hw.clean hc1).clean hc2).clean hc3).free hc4) hf

/-! ## `clean_mnt` -/

/-- `clean_mnt` on a context whose pass completed, in a well formed store, the chain from `Lmi`
being the records `M`: it completes exactly when the records and their strings are distinct
and live objects, and then leaves the store with exactly those objects released and `Lmi` and
`Lmist` cleared. -/
theorem cleanMnt_eq_ok_iff {st : MntState} {M : List (Ptr × Mounts)} (hst : st.lmist = true)
    (hw : st.heap.WF) (hc : Linked st.heap st.lmi M) (st' : MntState) :
    cleanMnt st = .ok st' ↔ ((recordObjs M).Nodup ∧ ∀ x ∈ recordObjs M, st.heap.mem x ≠ none) ∧
      st' = { st with heap := st.heap.releaseAll (recordObjs M), lmist := false, lmi := none } := by
  have hf := freeMounts_eq_ok_iff hc (hc.length_le hw)
  simp only [cleanMnt, hst, Bool.not_true, Bool.false_eq_true, if_false, bind_eq_ok_iff]
  constructor
  · rintro ⟨h', hfree, he⟩
    cases he
    obtain ⟨hnd, rfl⟩ := (hf h').mp hfree
    exact ⟨hnd, rfl⟩
  · rintro ⟨hnd, rfl⟩
    exact ⟨_, (hf _).mpr ⟨hnd, rfl⟩, rfl⟩

/-- `/` mounted from `/dev/sda1`, whose name `Readlink` returns as it is: after the pass the
entry's `fsname` and `fsnmres` are the one string 0, so the table's objects are not distinct,
and `clean_mnt` releases that string twice. -/
theorem cleanMnt_eq_ok_iff_sharedName :
    ∃ r st M, readmnt ⟨[], 0, false⟩
        ⟨true, [⟨some (lit "/dev/sda1", lit "/", lit "ext4"), true, fun _ => true, true,
          fun _ => true, .link (lit "/"), some Stat.zero, none, true, true, .same, none⟩]⟩
        MntState.init = .ok (r, st) ∧
      st.lmist = true ∧ st.heap.WF ∧ Linked st.heap st.lmi M ∧ ¬ (recordObjs M).Nodup ∧
      (∀ st', cleanMnt st ≠ .ok st') ∧ cleanMnt st = .error (.doubleFree 0) := by
  obtain ⟨hst, -, N, hs, -⟩ := @readmnt_store ⟨[], 0, false⟩
    ⟨true, [⟨some (lit "/dev/sda1", lit "/", lit "ext4"), true, fun _ => true, true,
      fun _ => true, .link (lit "/"), some Stat.zero, none, true, true, .same, none⟩]⟩
    MntState.init _ _ rfl rfl Heap.WF.empty rfl (by decide) (by decide) rfl
  refine ⟨_, _, [(3, ⟨some 2, 1, 0, 0, 0, 0, StatBits.all, .reglr, some 0, some 0, 0, none⟩)],
    rfl, hst, hs.wf, ?_⟩
  have hnd : ¬ (recordObjs
      [(3, ⟨some 2, 1, 0, 0, 0, 0, StatBits.all, .reglr, some 0, some 0, 0, none⟩)]).Nodup := by
    decide
  exact ⟨.cons rfl .nil, hnd,
    fun st' h => hnd ((cleanMnt_eq_ok_iff hst hs.wf (.cons rfl .nil) st').mp h).1.1, rfl⟩

end LsofMount.Readmnt
