import LsofMount.Readmnt.Loop

/-!
# Reasoning about the loop body

`Body.Spec b R Qn Qx` says where a stretch `b` of the loop body can go: its value satisfies
`R`, a `continue` leaves locals and state satisfying `Qn`, a `goto cleanup` leaves ones
satisfying `Qx`; a fault is not constrained. The rules below follow the body's `do` blocks,
so each block's guarantee is proved once and the body's follows by `Body.Spec.bind`.

The first use: the body jumps to `cleanup` only when the `malloc` of a new entry or the
`mkstrcpy` of the file system name fails (`readmntLoop_ne_exit`).
-/

set_option autoImplicit false

namespace LsofMount.Readmnt

open LsofMount

/-- Where a stretch of the loop body can go. -/
def Body.Spec {α : Type} (b : Body α) (R : α → Prop) (Qn Qx : Locals → MntState → Prop) :
    Prop :=
  match b with
  | .ok a => R a
  | .error (.next loc st) => Qn loc st
  | .error (.exit loc st) => Qx loc st
  | .error (.fault _) => True

section Rules

variable {α β : Type} {R : β → Prop} {Qn Qx : Locals → MntState → Prop}

theorem Body.Spec.pure {a : β} (h : R a) : Body.Spec (pure a) R Qn Qx := h

theorem Body.Spec.next {loc : Locals} {st : MntState} (h : Qn loc st) :
    Body.Spec (throw (.next loc st) : Body β) R Qn Qx := h

theorem Body.Spec.exit {loc : Locals} {st : MntState} (h : Qx loc st) :
    Body.Spec (throw (.exit loc st) : Body β) R Qn Qx := h

theorem Body.Spec.fault (f : Fault) : Body.Spec (throw (.fault f) : Body β) R Qn Qx := trivial

theorem Body.Spec.lift {x : Except Fault β} (h : ∀ a, x = .ok a → R a) :
    Body.Spec (lift x) R Qn Qx := by
  cases x with
  | error f => trivial
  | ok a => exact h a rfl

theorem Body.Spec.bind {x : Body α} {f : α → Body β} {R' : α → Prop}
    (hx : Body.Spec x R' Qn Qx) (hf : ∀ a, R' a → Body.Spec (f a) R Qn Qx) :
    Body.Spec (x >>= f) R Qn Qx := by
  cases x with
  | ok a => exact hf a hx
  | error j => cases j <;> exact hx

/-- A store operation and what follows it: only its success needs a proof. -/
theorem Body.Spec.lift_bind {x : Except Fault α} {f : α → Body β}
    (hf : ∀ a, x = .ok a → Body.Spec (f a) R Qn Qx) :
    Body.Spec (Readmnt.lift x >>= f) R Qn Qx := by
  cases x with
  | error e => trivial
  | ok a => exact hf a rfl

theorem Body.Spec.pure_bind {a : α} {f : α → Body β} (h : Body.Spec (f a) R Qn Qx) :
    Body.Spec (Pure.pure a >>= f) R Qn Qx := h

theorem Body.Spec.mono {b : Body β} {R' : β → Prop} {Qn' Qx' : Locals → MntState → Prop}
    (h : Body.Spec b R Qn Qx) (hR : ∀ a, R a → R' a) (hn : ∀ loc st, Qn loc st → Qn' loc st)
    (hx : ∀ loc st, Qx loc st → Qx' loc st) : Body.Spec b R' Qn' Qx' := by
  match b, h with
  | .ok a, h => exact hR a h
  | .error (.next loc st), h => exact hn loc st h
  | .error (.exit loc st), h => exact hx loc st h
  | .error (.fault _), _ => trivial

end Rules

/-! ## Where the body jumps to `cleanup` -/

/-- A stretch that never jumps to `cleanup`. -/
abbrev NoExit {α : Type} (b : Body α) : Prop :=
  Body.Spec b (fun _ => True) (fun _ _ => True) (fun _ _ => False)

theorem noExit_lift {α : Type} (x : Except Fault α) : NoExit (lift x) :=
  Body.Spec.lift fun _ _ => trivial

theorem fieldsBlock_noExit (l : MountLine) (loc : Locals) (st : MntState) :
    NoExit (fieldsBlock l loc st) := by
  unfold fieldsBlock
  split
  · refine .bind (noExit_lift _) fun _ _ => .bind (noExit_lift _) fun _ _ => ?_
    split
    · split
      · exact .pure trivial
      · exact .next trivial
    · exact .next trivial
  · exact .next trivial

theorem readlinkDir_noExit (l : MountLine) (loc : Locals) (h : Heap) (st : MntState) :
    NoExit (readlinkDir l loc h st) := by
  unfold readlinkDir
  split
  · exact .next trivial
  · exact .pure trivial
  · exact .bind (noExit_lift _) fun _ _ => .pure trivial

theorem dirBlock_noExit (cfg : MntConfig) (l : MountLine) (loc : Locals) (st : MntState) :
    NoExit (dirBlock cfg l loc st) := by
  unfold dirBlock
  refine .bind (noExit_lift _) fun _ _ => .bind (noExit_lift _) fun _ _ => ?_
  split
  refine .bind (?_ : NoExit _) fun _ _ => .bind (noExit_lift _) fun _ _ => ?_
  · split
    · exact .pure trivial
    · exact readlinkDir_noExit l _ _ _
  · split
    · exact .next trivial
    · exact .pure trivial

theorem dupBlock_noExit (ty d : CStr) (loc : Locals) (st : MntState) :
    NoExit (dupBlock ty d loc st) := by
  unfold dupBlock
  refine .bind (noExit_lift _) fun mp _ => ?_
  split
  · exact .pure trivial
  · split
    · exact .next trivial
    · refine .bind (noExit_lift _) fun _ _ => ?_
      split
      · exact .next trivial
      · exact .pure trivial

theorem statBlock_noExit (cfg : MntConfig) (l : MountLine) (ignstat : Bool) (loc : Locals)
    (st : MntState) : NoExit (statBlock cfg l ignstat loc st) := by
  unfold statBlock
  split
  · exact .pure trivial
  · split
    · split <;> exact .pure trivial
    · split
      · exact .next trivial
      · exact .pure trivial

theorem entryBlock_noExit {l : MountLine} (hm : l.mntAlloc = true) (loc : Locals)
    (st : MntState) : NoExit (entryBlock l loc st) := by
  unfold entryBlock
  split
  · exact .bind (noExit_lift _) fun _ _ => .bind (noExit_lift _) fun _ _ =>
      .bind (noExit_lift _) fun _ _ => .bind (noExit_lift _) fun _ _ =>
      .bind (noExit_lift _) fun _ _ => .pure trivial
  · rw [if_pos hm]
    exact .pure trivial

theorem fsnameBlock_noExit {l : MountLine} (hc : l.cpyAlloc = true) (fs : CStr)
    (ignrdl ignstat : Bool) (loc : Locals) (h : Heap) (st : MntState) :
    NoExit (fsnameBlock l fs ignrdl ignstat loc h st) := by
  unfold fsnameBlock
  split
  · exact .pure trivial
  · split
    · exact .pure trivial
    · exact .fault _

theorem fillBlock_noExit {l : MountLine} (hm : l.mntAlloc = true) (hc : l.cpyAlloc = true)
    (d : CStr) (nfs mq ignrdl ignstat : Bool) (ds : StatBits) (loc : Locals) (st : MntState) :
    NoExit (fillBlock l d nfs mq ignrdl ignstat ds loc st) := by
  unfold fillBlock
  refine .bind (entryBlock_noExit hm loc st) fun ⟨ne, _, _⟩ _ => ?_
  refine .bind (noExit_lift _) fun _ _ => .bind (noExit_lift _) fun _ _ => ?_
  refine .bind (noExit_lift _) fun _ _ => .bind (fsnameBlock_noExit hc _ _ _ _ _ _)
    fun ⟨_, _, _⟩ _ => .bind (noExit_lift _) fun _ _ => ?_
  cases ne <;> exact .pure trivial

theorem readmntBody_noExit {l : MountLine} (hm : l.mntAlloc = true) (hc : l.cpyAlloc = true)
    (cfg : MntConfig) (loc : Locals) (st : MntState) : NoExit (readmntBody cfg l loc st) := by
  unfold readmntBody
  refine .bind (fieldsBlock_noExit l loc st) fun _ _ => .bind (noExit_lift _) fun _ _ => ?_
  split
  · exact .next trivial
  · exact .bind (dirBlock_noExit cfg l _ _) fun _ _ => .bind (dupBlock_noExit _ _ _ _)
      fun _ _ => .bind (statBlock_noExit cfg l _ _ _) fun _ _ =>
      fillBlock_noExit hm hc _ _ _ _ _ _ _ _

/-- With the `malloc` of an entry and the `mkstrcpy` succeeding, an iteration does not jump
to `cleanup`. -/
theorem readmntStep_ne_exit {l : MountLine} (hm : l.mntAlloc = true) (hc : l.cpyAlloc = true)
    (cfg : MntConfig) (loc : Locals) (st : MntState) (loc' : Locals) (st' : MntState) :
    readmntStep cfg l loc st ≠ .exit loc' st' := by
  have hb := readmntBody_noExit hm hc cfg loc st
  unfold readmntStep
  split
  · exact Jump.noConfusion
  · next j hj =>
      rw [hj] at hb
      rintro rfl
      exact hb

/-- With every `malloc` of an entry and every `mkstrcpy` succeeding, the loop ends by
reading all records or by a fault, never by `goto cleanup`. -/
theorem readmntLoop_ne_exit (cfg : MntConfig) (ls : List MountLine)
    (hls : ∀ l ∈ ls, l.mntAlloc = true ∧ l.cpyAlloc = true) :
    ∀ loc st loc' st', readmntLoop cfg ls loc st ≠ .exit loc' st' := by
  induction ls with
  | nil => exact fun _ _ _ _ => Jump.noConfusion
  | cons l ls ih =>
      intro loc st loc' st'
      obtain ⟨hm, hc⟩ := hls l (List.mem_cons_self _ _)
      rw [readmntLoop]
      split
      · exact ih (fun l hl => hls l (List.mem_cons_of_mem _ hl)) _ _ _ _
      · exact readmntStep_ne_exit hm hc cfg loc st loc' st'

end LsofMount.Readmnt
