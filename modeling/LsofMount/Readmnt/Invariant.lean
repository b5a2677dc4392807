import LsofMount.Readmnt.Steps
import LsofMount.Readmnt.Chain

/-!
# The invariant of the read loop

Between two records the store is well formed, the chain from `Lmi` is a list of nodes with
distinct directories (`StoreInv`), and none of the pointer locals `dn`, `fp[0]`, `fp[1]` and
`ln` holds an object of the chain, live or released (`Outside`): `LoopInv`.

`After cfg T hit l` is what the loop should leave after the record `l`, the table before it
being `T` and the hit flag `hit`: an invariant state whose chain holds the table `specStep`
gives, with `mp` set exactly when `specStep`'s flag is. The records that leave the table as it
is are `After_skip` (the record never reaches the duplicate search) and `After_keep` (it
reaches it and is not added).
-/

set_option autoImplicit false

namespace LsofMount.Readmnt

open LsofMount

/-- A pointer that holds nothing of the chain `N`: `NULL`, or an id handed out below `top` that
no node holds. -/
def Outside (top : Nat) (N : List Node) (o : Option Ptr) : Prop :=
  ∀ q, o = some q → q < top ∧ q ∉ chainObjs N

theorem outside_none (top : Nat) (N : List Node) : Outside top N none := fun _ h => nomatch h

theorem Outside.mono {t t' : Nat} {N : List Node} {o : Option Ptr} (ho : Outside t N o)
    (ht : t ≤ t') : Outside t' N o :=
  fun q hq => ⟨Nat.lt_of_lt_of_le (ho q hq).1 ht, (ho q hq).2⟩

theorem Outside.alloc {h : Heap} {N : List Node} {o : Option Ptr} (ho : Outside h.top N o)
    (x : Obj) : Outside (h.alloc x).2.top N o :=
  ho.mono (Nat.le_succ _)

/-- The store between records: well formed, the chain from `lmi` is `N`, its directories are
distinct, and it has no more nodes than ids handed out. -/
structure StoreInv (h : Heap) (lmi : Option Ptr) (N : List Node) : Prop where
  wf : h.WF
  chain : Chain h lmi N
  len : N.length ≤ h.top
  nodup : (N.map fun n => n.2.2.dir).Nodup

/-- The invariant between records. -/
structure LoopInv (loc : Locals) (st : MntState) (N : List Node) : Prop where
  store : StoreInv st.heap st.lmi N
  dn : Outside st.heap.top N loc.dn
  fp0 : Outside st.heap.top N loc.fp0
  fp1 : Outside st.heap.top N loc.fp1
  ln : Outside st.heap.top N loc.ln

/-- The invariant reads only the store, `Lmi` and the pointer locals other than `mp`. -/
theorem LoopInv.congr {loc loc' : Locals} {st st' : MntState} {N : List Node}
    (hinv : LoopInv loc st N) (hdn : loc'.dn = loc.dn) (hfp0 : loc'.fp0 = loc.fp0)
    (hfp1 : loc'.fp1 = loc.fp1) (hln : loc'.ln = loc.ln) (hh : st'.heap = st.heap)
    (hl : st'.lmi = st.lmi) : LoopInv loc' st' N := by
  obtain ⟨hs, h1, h2, h3, h4⟩ := hinv
  constructor <;> rw [hh]
  · rw [hl]; exact hs
  · rw [hdn]; exact h1
  · rw [hfp0]; exact h2
  · rw [hfp1]; exact h3
  · rw [hln]; exact h4

/-! ## The store operations of the body keep the chain -/

section Store

variable {h h' : Heap} {lmi : Option Ptr} {N : List Node}

theorem StoreInv.objs_lt (hs : StoreInv h lmi N) {x : Ptr} (hx : x ∈ chainObjs N) :
    x < h.top :=
  hs.wf x (hs.chain.objs_live x hx)

theorem StoreInv.alloc (hs : StoreInv h lmi N) (o : Obj) : StoreInv (h.alloc o).2 lmi N :=
  ⟨hs.wf.alloc o, hs.chain.frame fun _ hx => h.alloc_mem_of_ne o (Nat.ne_of_lt (hs.objs_lt hx)),
    by simpa using Nat.le_succ_of_le hs.len, hs.nodup⟩

/-- A fresh id holds nothing of the chain. -/
theorem StoreInv.outside_alloc (hs : StoreInv h lmi N) (o : Obj) :
    Outside (h.alloc o).2.top N (some (h.alloc o).1) := by
  rintro q ⟨⟩
  exact ⟨by simp, fun hx => Nat.lt_irrefl _ (hs.objs_lt hx)⟩

theorem StoreInv.clean {o : Option Ptr} (hs : StoreInv h lmi N) (ho : Outside h.top N o)
    (hc : h.clean o = .ok h') : StoreInv h' lmi N :=
  ⟨hs.wf.clean hc,
    hs.chain.frame fun _ hx => Heap.clean_mem_of_ne hc fun q hq hxq => (ho q hq).2 (hxq ▸ hx),
    Heap.clean_top hc ▸ hs.len, hs.nodup⟩

/-- A node for a new directory, written at an id beyond the old frontier with objects of its
own, and linked at the head. -/
theorem StoreInv.link (hs : StoreInv h lmi N) {p : Ptr} {m : Mounts} {e : MountEntry}
    (hwf : h'.WF) (htop : h.top < h'.top) (hframe : ∀ x ∈ chainObjs N, h'.mem x = h.mem x)
    (hm : h'.mem p = some (.mnt m)) (he : nodeEntry h' m = .ok e) (hl : m.dirl = e.dir.length)
    (hnext : m.next = lmi) (hdisj : ∀ x ∈ nodeObjs p m, x ∉ chainObjs N)
    (hd : e.dir ∉ N.map fun n => n.2.2.dir) :
    StoreInv h' (some p) ((p, m, e) :: N) :=
  ⟨hwf, .cons hm he hl hdisj (hnext ▸ hs.chain.frame hframe),
    Nat.succ_le_of_lt (Nat.lt_of_le_of_lt hs.len htop), List.nodup_cons.mpr ⟨hd, hs.nodup⟩⟩

/-- The node for a directory, rewritten in place with a record for the same directory and
successor. -/
theorem StoreInv.replace (hs : StoreInv h lmi N) {q : Ptr} {m0 m' : Mounts}
    {e0 e' : MountEntry} (hq : (q, m0, e0) ∈ N) (hwf : h'.WF) (htop : h.top ≤ h'.top)
    (hagree : ∀ x ∈ chainObjs N, x ∉ nodeObjs q m0 → h'.mem x = h.mem x)
    (hm' : h'.mem q = some (.mnt m')) (hnext : m'.next = m0.next)
    (he' : nodeEntry h' m' = .ok e') (hl' : m'.dirl = e'.dir.length) (hdir : e'.dir = e0.dir)
    (hnew : ∀ x ∈ nodeObjs q m', x ∈ chainObjs N → x ∈ nodeObjs q m0) :
    StoreInv h' lmi (N.map fun n => if n.2.2.dir = e0.dir then (q, m', e') else n) := by
  have hdirs : ((N.map fun n => if n.2.2.dir = e0.dir then (q, m', e') else n).map
      fun n => n.2.2.dir) = N.map fun n => n.2.2.dir := by
    rw [List.map_map]
    refine List.map_congr_left fun n _ => ?_
    simp only [Function.comp]
    split
    · next h => exact hdir.trans h.symm
    · rfl
  refine ⟨hwf, hs.chain.update hs.nodup hq hagree hm' hnext he' hl' hnew, ?_, hdirs ▸ hs.nodup⟩
  rw [List.length_map]
  exact Nat.le_trans hs.len htop

end Store

/-! ## The table after a record -/

/-- What the loop should leave after the record `l`. -/
def After (cfg : MntConfig) (T : List MountEntry) (hit : Bool) (l : MountLine) (loc : Locals)
    (st : MntState) : Prop :=
  ∃ N, LoopInv loc st N ∧ N.map (·.2.2) = (specStep cfg (T, hit) l).1 ∧
    (loc.mp = none ↔ (specStep cfg (T, hit) l).2 = false)

section After

variable {cfg : MntConfig} {T : List MountEntry} {hit : Bool} {l : MountLine} {loc : Locals}
  {st : MntState} {N : List Node}

/-- A record that never reaches the duplicate search, with `mp` as it was. -/
theorem After_skip (hinv : LoopInv loc st N) (hT : N.map (·.2.2) = T)
    (hmp : loc.mp = none ↔ hit = false) (hd : lineDir cfg l = none) :
    After cfg T hit l loc st :=
  ⟨N, hinv, by rw [specStep_of_lineDir_none hd, hT], by rw [specStep_of_lineDir_none hd]; exact hmp⟩

/-- The search finds the node for `d` as a search of the entries finds its entry. -/
theorem find_entries (N : List Node) (d : CStr) :
    (N.map (·.2.2)).find? (·.dir == d) = (N.find? (·.2.2.dir == d)).map (·.2.2) := by
  rw [List.find?_map]
  rfl

theorem any_entries (N : List Node) (d : CStr) :
    (N.map (·.2.2)).any (·.dir == d) = (N.find? (·.2.2.dir == d)).isSome := by
  induction N with
  | nil => rfl
  | cons n N ih => by_cases h : n.2.2.dir = d <;> simp [List.find?_cons, h, ih]

/-- A record that reaches the duplicate search for `d` and is not added: `mp` is set exactly
when the search found a node. -/
theorem After_keep {d : CStr} (hinv : LoopInv loc st N) (hT : N.map (·.2.2) = T)
    (hd : lineDir cfg l = some d)
    (hmp : loc.mp = none ↔ N.find? (·.2.2.dir == d) = none)
    (hkeep : ∀ e, lineEntry cfg l = some e → addEntry T e = T) :
    After cfg T hit l loc st := by
  refine ⟨N, hinv, ?_, ?_⟩
  · rw [specStep_of_lineDir hd]
    cases he : lineEntry cfg l with
    | none => exact hT
    | some e => exact hT.trans (hkeep e he).symm
  · rw [specStep_of_lineDir hd, hmp, ← hT, any_entries]
    simp

end After

end LsofMount.Readmnt
