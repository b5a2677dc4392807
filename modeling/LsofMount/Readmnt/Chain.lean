import LsofMount.Readmnt.Table

/-!
# The chain `Lmi` as a list of nodes

`Chain h p N` says that the chain from `p` in the store `h` is the list `N` of nodes, each
with its id, its record and the entry the record stands for. Every node is live, its strings
are readable, its `dirl` is the length of its directory, and no two nodes share an object. A
chain is read by `readTable` as its entries (`Chain.readTable_eq`), and searched by `findMnt` as
a list (`Chain.findMnt_eq`). A store that keeps the chain's objects keeps the chain
(`Chain.frame`); replacing one node's record and strings replaces its entry
(`Chain.update`).
-/

set_option autoImplicit false

namespace LsofMount.Readmnt

open LsofMount

/-- The objects a node holds: the node itself and its strings. -/
def nodeObjs (p : Ptr) (m : Mounts) : List Ptr :=
  p :: (m.dir.toList ++ m.fsname.toList ++ m.fsnmres.toList)

/-- A node of the chain: its id, its record, and the entry the record stands for. -/
abbrev Node := Ptr × Mounts × MountEntry

/-- The objects of a list of nodes. -/
def chainObjs (N : List Node) : List Ptr := N.flatMap fun n => nodeObjs n.1 n.2.1

/-- The chain from `p` is the list of nodes `N`. -/
inductive Chain (h : Heap) : Option Ptr → List Node → Prop where
  | nil : Chain h none []
  | cons {p : Ptr} {m : Mounts} {e : MountEntry} {N : List Node} :
      h.mem p = some (.mnt m) → nodeEntry h m = .ok e → m.dirl = e.dir.length →
      (∀ q ∈ nodeObjs p m, q ∉ chainObjs N) → Chain h m.next N →
      Chain h (some p) ((p, m, e) :: N)

@[simp] theorem chainObjs_nil : chainObjs [] = [] := rfl

@[simp] theorem chainObjs_cons (n : Node) (N : List Node) :
    chainObjs (n :: N) = nodeObjs n.1 n.2.1 ++ chainObjs N := rfl

theorem mem_nodeObjs_self (p : Ptr) (m : Mounts) : p ∈ nodeObjs p m := List.mem_cons_self _ _

theorem nodeObjs_subset {n : Node} {N : List Node} (hn : n ∈ N) :
    ∀ x ∈ nodeObjs n.1 n.2.1, x ∈ chainObjs N :=
  fun _ hx => List.mem_flatMap.mpr ⟨n, hn, hx⟩

/-! ## Reading a node -/

/-- The record's fields and strings as its entry shows them. -/
theorem nodeEntry_ok {h : Heap} {m : Mounts} {e : MountEntry} (he : nodeEntry h m = .ok e) :
    h.readStr m.dir = .ok e.dir ∧ h.readStr m.fsname = .ok e.fsname ∧
      h.readOptStr m.fsnmres = .ok e.fsnmres ∧ e.dirl = m.dirl ∧ e.ty = m.ty := by
  unfold nodeEntry at he
  obtain ⟨d, hd, he⟩ := bind_eq_ok he
  obtain ⟨f, hf, he⟩ := bind_eq_ok he
  obtain ⟨r, hr, he⟩ := bind_eq_ok he
  cases Except.ok.inj he
  exact ⟨hd, hf, hr, rfl, rfl⟩

theorem nodeEntry_of_reads {h : Heap} {m : Mounts} {d fs : CStr} {r : Option CStr}
    (hd : h.readStr m.dir = .ok d) (hf : h.readStr m.fsname = .ok fs)
    (hr : h.readOptStr m.fsnmres = .ok r) :
    nodeEntry h m = .ok ⟨d, m.dirl, m.dev, m.rdev, m.inode, m.mode, m.ds, m.ty, fs, r, m.fsMode⟩ := by
  simp only [nodeEntry, hd, hf, hr]
  rfl

theorem Heap.readOptStr_congr {h h' : Heap} {o : Option Ptr}
    (hagree : ∀ x ∈ o.toList, h'.mem x = h.mem x) : h'.readOptStr o = h.readOptStr o := by
  cases o with
  | none => rfl
  | some q => simp only [Heap.readOptStr, Heap.readStr_congr (hagree q (by simp))]

theorem Heap.readOptStr_isNone {h : Heap} {o : Option Ptr} {r : Option CStr}
    (hr : h.readOptStr o = .ok r) : o.isNone = r.isNone := by
  cases o with
  | none => cases hr; rfl
  | some q =>
      simp only [Heap.readOptStr, Functor.map, Except.map] at hr
      split at hr
      · cases hr
      · cases hr; rfl

/-- A node's entry depends only on the node's own objects. -/
theorem nodeEntry_congr {h h' : Heap} (p : Ptr) (m : Mounts)
    (hagree : ∀ q ∈ nodeObjs p m, h'.mem q = h.mem q) : nodeEntry h' m = nodeEntry h m := by
  have hs : ∀ o : Option Ptr, (∀ q, o = some q → q ∈ nodeObjs p m) →
      h'.readStr o = h.readStr o := fun o ho => by
    cases o with
    | none => rfl
    | some q => simp only [Heap.readStr, hagree q (ho q rfl)]
  have hdir := hs m.dir fun q hq => by simp [nodeObjs, hq]
  have hfs := hs m.fsname fun q hq => by simp [nodeObjs, hq]
  have hres : h'.readOptStr m.fsnmres = h.readOptStr m.fsnmres := by
    cases hq : m.fsnmres with
    | none => rfl
    | some q =>
        have hq' := hs (some q) fun x hx => by cases hx; simp [nodeObjs, hq]
        simp only [Heap.readOptStr, hq']
  simp only [nodeEntry, hdir, hfs, hres]

/-- A string that reads is live. -/
theorem Heap.readStr_live {h : Heap} {o : Option Ptr} {s : CStr} (hr : h.readStr o = .ok s) :
    ∀ x ∈ o.toList, h.mem x ≠ none := by
  intro x hx
  cases o with
  | none => cases hx
  | some q =>
      obtain rfl : x = q := by simpa using hx
      simp only [Heap.readStr] at hr
      split at hr
      · next hs => simp [hs]
      · cases hr

theorem Heap.readOptStr_live {h : Heap} {o : Option Ptr} {s : Option CStr}
    (hr : h.readOptStr o = .ok s) : ∀ x ∈ o.toList, h.mem x ≠ none := by
  cases o with
  | none => intro x hx; cases hx
  | some q =>
      obtain ⟨s', hs', -⟩ : ∃ s', h.readStr (some q) = .ok s' ∧ some s' = s := by
        simp only [Heap.readOptStr, Functor.map, Except.map] at hr
        split at hr
        · cases hr
        · next hs => exact ⟨_, hs, Except.ok.inj hr⟩
      exact Heap.readStr_live hs'

/-! ## Reading and searching a chain -/

section Chain

variable {h : Heap}

theorem Chain.frame {h' : Heap} {p : Option Ptr} {N : List Node} (hc : Chain h p N)
    (hagree : ∀ q ∈ chainObjs N, h'.mem q = h.mem q) : Chain h' p N := by
  induction hc with
  | nil => exact .nil
  | @cons p m e N hp he hl hd _ ih =>
      simp only [chainObjs_cons, List.mem_append] at hagree
      refine .cons ?_ ?_ hl hd (ih fun q hq => hagree q (.inr hq))
      · rw [hagree p (.inl (mem_nodeObjs_self p m)), hp]
      · rw [nodeEntry_congr p m fun q hq => hagree q (.inl hq), he]

theorem Chain.readTable_eq {p : Option Ptr} {N : List Node} (hc : Chain h p N) :
    ∀ n, N.length ≤ n → readTable h n p = .ok (N.map fun x => x.2.2) := by
  induction hc with
  | nil => intro n _; cases n <;> rfl
  | @cons p m e N hp he _ _ _ ih =>
      intro n hn
      obtain ⟨n, rfl⟩ : ∃ k, n = k + 1 := ⟨n - 1, by simp at hn; omega⟩
      have hr : h.readMnt p = .ok m := Heap.readMnt_of_mem hp
      simp only [readTable, hr, he, ih n (by simpa using hn), bind, Except.bind, pure,
        Except.pure, List.map_cons]

/-- The duplicate search finds the first node whose directory is `d`. -/
theorem Chain.findMnt_eq {p : Option Ptr} {N : List Node} (hc : Chain h p N) (d : CStr) :
    ∀ n, N.length ≤ n →
      findMnt h d n p = .ok ((N.find? fun x => x.2.2.dir == d).map fun x => x.1) := by
  induction hc with
  | nil => intro n _; cases n <;> rfl
  | @cons p m e N hp he hl _ _ ih =>
      intro n hn
      obtain ⟨n, rfl⟩ : ∃ k, n = k + 1 := ⟨n - 1, by simp at hn; omega⟩
      have hr : h.readMnt p = .ok m := Heap.readMnt_of_mem hp
      obtain ⟨hdir, -⟩ := nodeEntry_ok he
      have ih' := ih n (by simpa using hn)
      simp only [findMnt, hr, bind, Except.bind, List.find?_cons]
      by_cases hd : e.dir = d
      · subst hd
        simp [hl, hdir, pure, Except.pure]
      · have hb : (e.dir == d) = false := by simpa using hd
        rw [hb]
        split_ifs with hlen
        · simp only [hdir, if_neg (Ne.symm hd)]
          exact ih'
        · exact ih'

theorem Chain.mem_live {p : Option Ptr} {N : List Node} (hc : Chain h p N) {n : Node}
    (hn : n ∈ N) : h.mem n.1 = some (.mnt n.2.1) := by
  induction hc with
  | nil => cases hn
  | cons hp _ _ _ _ ih =>
      rcases List.mem_cons.mp hn with rfl | hn
      · exact hp
      · exact ih hn

theorem Chain.entry {p : Option Ptr} {N : List Node} (hc : Chain h p N) {n : Node}
    (hn : n ∈ N) : nodeEntry h n.2.1 = .ok n.2.2 ∧ n.2.1.dirl = n.2.2.dir.length := by
  induction hc with
  | nil => cases hn
  | cons _ he hl _ _ ih =>
      rcases List.mem_cons.mp hn with rfl | hn
      · exact ⟨he, hl⟩
      · exact ih hn

/-- Every object a chain holds is live. -/
theorem Chain.objs_live {p : Option Ptr} {N : List Node} (hc : Chain h p N) :
    ∀ x ∈ chainObjs N, h.mem x ≠ none := by
  induction hc with
  | nil => simp
  | @cons p m e N hp he _ _ _ ih =>
      obtain ⟨hd, hf, hr, -⟩ := nodeEntry_ok he
      intro x hx
      simp only [chainObjs_cons, nodeObjs, List.mem_append, List.mem_cons] at hx
      rcases hx with (rfl | (hx | hx) | hx) | hx
      · simp [hp]
      · exact Heap.readStr_live hd x hx
      · exact Heap.readStr_live hf x hx
      · exact Heap.readOptStr_live hr x hx
      · exact ih x hx

/-! ## Replacing a node -/

/-- Replacing the record of the node for one directory by a record with the same successor
and with objects of its own replaces that node's entry. -/
theorem Chain.update {h' : Heap} {p : Option Ptr} {N : List Node} (hc : Chain h p N)
    (hnd : (N.map fun n => n.2.2.dir).Nodup) {q : Ptr} {m0 m' : Mounts} {e0 e' : MountEntry}
    (hq : (q, m0, e0) ∈ N)
    (hagree : ∀ x ∈ chainObjs N, x ∉ nodeObjs q m0 → h'.mem x = h.mem x)
    (hm' : h'.mem q = some (.mnt m')) (hnext : m'.next = m0.next)
    (he' : nodeEntry h' m' = .ok e') (hl' : m'.dirl = e'.dir.length)
    (hnew : ∀ x ∈ nodeObjs q m', x ∈ chainObjs N → x ∈ nodeObjs q m0) :
    Chain h' p (N.map fun n => if n.2.2.dir = e0.dir then (q, m', e') else n) := by
  induction hc with
  | nil => cases hq
  | @cons p m e N hp he hl hd hrest ih =>
      rw [List.map_cons, List.nodup_cons] at hnd
      simp only [chainObjs_cons, List.mem_append] at hagree hnew
      by_cases hdir : e.dir = e0.dir
      · -- the node for the directory is the head: the rest has no other
        have hnot : e0.dir ∉ N.map fun n => n.2.2.dir := hdir ▸ hnd.1
        obtain ⟨rfl, rfl, rfl⟩ : p = q ∧ m = m0 ∧ e = e0 := by
          rcases List.mem_cons.mp hq with hq | hq
          · cases hq; exact ⟨rfl, rfl, rfl⟩
          · exact absurd (List.mem_map_of_mem _ hq) hnot
        have hrest_id : (N.map fun n => if n.2.2.dir = e.dir then (p, m', e') else n) = N :=
          (List.map_congr_left fun n hn => if_neg fun (he : n.2.2.dir = e.dir) =>
            hnot (he ▸ List.mem_map_of_mem (fun n : Node => n.2.2.dir) hn)).trans (List.map_id N)
        rw [List.map_cons, if_pos rfl, hrest_id]
        refine .cons hm' he' hl' (fun x hx hxN => hd x (hnew x hx (.inr hxN)) hxN) ?_
        rw [hnext]
        exact hrest.frame fun x hx => hagree x (.inr hx) fun hxq => hd x hxq hx
      · -- the head keeps its record and entry
        have hq' : (q, m0, e0) ∈ N := by
          rcases List.mem_cons.mp hq with hq | hq
          · cases hq; exact absurd rfl hdir
          · exact hq
        have hout : ∀ x ∈ nodeObjs p m, x ∉ nodeObjs q m0 :=
          fun x hx hxq => hd x hx (nodeObjs_subset hq' x hxq)
        have hsame : ∀ x ∈ nodeObjs p m, h'.mem x = h.mem x :=
          fun x hx => hagree x (.inl hx) (hout x hx)
        rw [List.map_cons, if_neg hdir]
        refine .cons ((hsame p (mem_nodeObjs_self p m)).trans hp)
          ((nodeEntry_congr p m hsame).trans he) hl (fun x hx hxN => ?_)
          (ih hnd.2 hq' (fun x hx => hagree x (.inr hx)) fun x hx hxN => hnew x hx (.inr hxN))
        obtain ⟨n, hn, hxn⟩ := List.mem_flatMap.mp hxN
        obtain ⟨n0, hn0, rfl⟩ := List.mem_map.mp hn
        split at hxn
        · exact hout x hx (hnew x hxn (.inl hx))
        · exact hd x hx (nodeObjs_subset hn0 x hxn)

end Chain

end LsofMount.Readmnt
