import BatchSystem.Core.LTS

/-!
# What a work queue with leases is for

Tasks of any type `K`, done by workers of any type `W` under leases that run
out, each with at most one outcome of type `O`. `system` is the most general
such queue: a claim takes any set of tasks that are free, where a task is free
if it waits or its lease ran out before the claim's own instant `asOf`, and
that instant may lie before the claim's effect.

* `claim_exclusive`: what a claim takes is not done, and whatever lease anybody
  had on it has run out.
* `one_holder`: no unfinished task is under running leases of two workers.
* `done_final`, `finished_once`: an outcome stays, and there is only one.
-/
namespace BatchSystem.Core.LeaseQueue

open scoped Classical

variable {K W O : Type}

inductive Task (W O : Type) where
  | waiting
  | leased (w : W) (ends : Int)
  | done (o : O)

/-- A claim of the instant `asOf` may take the task. -/
def Task.Free (asOf : Int) : Task W O → Prop
  | .waiting => True
  | .leased _ ends => ends < asOf
  | .done _ => False

structure State (K W O : Type) where
  now : Int
  task : K → Option (Task W O)

inductive Op (K W O : Type) where
  | tick (d : Nat)
  /-- New tasks, some of them with an outcome already. -/
  | add (new : K → Option (Option O))
  | claim (w : W) (asOf ends : Int) (ks : Set K)
  | renew (w : W) (ends : Int)
  | finish (w : W) (outcome : K → Option O)

/-- The worker has the task. -/
def Holds (s : State K W O) (w : W) (k : K) : Prop := ∃ ends, s.task k = some (.leased w ends)

/-- The task after the operation. -/
noncomputable def after (s : State K W O) (k : K) : Op K W O → Option (Task W O)
  | .tick _ => s.task k
  | .add new => match new k with
    | some none => some .waiting
    | some (some o) => some (.done o)
    | none => s.task k
  | .claim w _ ends ks => if k ∈ ks then some (.leased w ends) else s.task k
  | .renew w ends => if Holds s w k then some (.leased w ends) else s.task k
  | .finish w outcome => match outcome k with
    | some o => if Holds s w k then some (.done o) else s.task k
    | none => s.task k

/-- What the operation requires. -/
def Guard (s : State K W O) : Op K W O → Prop
  | .add new => ∀ k, new k ≠ none → s.task k = none
  | .claim _ asOf _ ks => asOf ≤ s.now ∧ ∀ k ∈ ks, ∃ t, s.task k = some t ∧ t.Free asOf
  | .tick _ | .renew .. | .finish .. => True

def Op.passes : Op K W O → Nat
  | .tick d => d
  | .add _ | .claim .. | .renew .. | .finish .. => 0

structure Step (s : State K W O) (op : Op K W O) (v : State K W O) : Prop where
  guard : Guard s op
  now : v.now = s.now + op.passes
  task : ∀ k, v.task k = after s k op

def system (K W O : Type) : LTS (State K W O) (Op K W O) where
  init s := ∀ k, s.task k = none
  step := Step

/-! ## One step on one task -/

theorem Step.le {s v : State K W O} {op : Op K W O} (h : Step s op v) : s.now ≤ v.now := by
  rw [h.now]
  omega

/-- A task that is done stays as it is. -/
theorem Step.done {s v : State K W O} {op : Op K W O} (h : Step s op v) {k : K} {o : O}
    (hk : s.task k = some (.done o)) : v.task k = some (.done o) := by
  have hno : ∀ w, ¬ Holds s w k := by
    rintro w ⟨ends, he⟩
    rw [hk] at he
    cases he
  rw [h.task, ← hk]
  cases op with
  | tick d => rfl
  | add new =>
    have hg := h.guard k
    cases hn : new k with
    | none => simp only [after, hn]
    | some x => rw [hg (by simp [hn])] at hk; cases hk
  | claim w asOf ends ks =>
    refine if_neg fun hmem => ?_
    obtain ⟨t, ht, hf⟩ := h.guard.2 k hmem
    rw [hk] at ht
    cases ht
    exact hf
  | renew w ends => exact if_neg (hno w)
  | finish w outcome =>
    simp only [after]
    split
    · exact if_neg (hno w)
    · rfl

/-- A task that somebody has or had never waits again. -/
theorem Step.started {s v : State K W O} {op : Op K W O} (h : Step s op v) {k : K}
    {t : Task W O} (hk : s.task k = some t) (ht : t ≠ .waiting) :
    ∃ t', v.task k = some t' ∧ t' ≠ .waiting := by
  have kept : ∃ t', s.task k = some t' ∧ t' ≠ .waiting := ⟨t, hk, ht⟩
  rw [h.task]
  cases op with
  | tick d => exact kept
  | add new =>
    simp only [after]
    cases hn : new k with
    | none => exact kept
    | some x =>
      rw [h.guard k (by simp [hn])] at hk
      cases hk
  | claim w asOf ends ks =>
    simp only [after]
    split
    · exact ⟨_, rfl, by simp⟩
    · exact kept
  | renew w ends =>
    simp only [after]
    split
    · exact ⟨_, rfl, by simp⟩
    · exact kept
  | finish w outcome =>
    simp only [after]
    split
    · split
      · exact ⟨_, rfl, by simp⟩
      · exact kept
    · exact kept

/-! ## The leases of a history -/

/-- The lease that a transition gives on a task. -/
noncomputable def granted (t : Trans (State K W O) (Op K W O)) (k : K) : Option (W × Int) :=
  match t.lbl with
  | .claim w _ ends ks => if k ∈ ks then some (w, ends) else none
  | .renew w ends => if Holds t.pre w k then some (w, ends) else none
  | .tick _ | .add _ | .finish .. => none

/-- The last lease of worker `w` on the task. -/
noncomputable def leaseOf (tr : List (Trans (State K W O) (Op K W O))) (w : W) (k : K) :
    Option Int :=
  tr.foldl (fun acc t => match granted t k with
    | some (w', ends) => if w' = w then some ends else acc
    | none => acc) none

theorem leaseOf_snoc (tr : List (Trans (State K W O) (Op K W O)))
    (t : Trans (State K W O) (Op K W O)) (w : W) (k : K) :
    leaseOf (tr ++ [t]) w k = match granted t k with
      | some (w', ends) => if w' = w then some ends else leaseOf tr w k
      | none => leaseOf tr w k := by
  simp [leaseOf]

theorem granted_task {s v : State K W O} {op : Op K W O} (h : Step s op v) {k : K} {w : W}
    {ends : Int} (hg : granted ⟨s, op, v⟩ k = some (w, ends)) :
    v.task k = some (.leased w ends) := by
  rw [h.task]
  cases op with
  | tick | add | finish => cases hg
  | claim x asOf e ks =>
    simp only [granted, Option.ite_none_right_eq_some] at hg
    obtain ⟨hmem, he⟩ := hg
    cases he
    exact if_pos hmem
  | renew x e =>
    simp only [granted, Option.ite_none_right_eq_some] at hg
    obtain ⟨hh, he⟩ := hg
    cases he
    exact if_pos hh

/-- Without a new lease a task keeps its lease until it is done. -/
theorem ungranted_task {s v : State K W O} {op : Op K W O} (h : Step s op v) {k : K}
    (hg : granted ⟨s, op, v⟩ k = none) {w : W} {ends : Int}
    (hk : s.task k = some (.leased w ends)) :
    v.task k = some (.leased w ends) ∨ ∃ o, v.task k = some (.done o) := by
  rw [h.task]
  cases op with
  | tick d => exact .inl hk
  | add new =>
    simp only [after]
    cases hn : new k with
    | none => exact .inl hk
    | some x =>
      rw [h.guard k (by simp [hn])] at hk
      cases hk
  | claim x asOf e ks =>
    simp only [granted, ite_eq_right_iff, reduceCtorEq, imp_false] at hg
    exact .inl ((if_neg hg).trans hk)
  | renew x e =>
    simp only [granted, ite_eq_right_iff, reduceCtorEq, imp_false] at hg
    exact .inl ((if_neg hg).trans hk)
  | finish x outcome =>
    simp only [after]
    split
    · split
      · exact .inr ⟨_, rfl⟩
      · exact .inl hk
    · exact .inl hk

/-- A new lease to another worker comes after the end of the old one. -/
theorem granted_takeover {s v : State K W O} {op : Op K W O} (h : Step s op v) {k : K} {w w' : W}
    {ends ends' : Int} (hg : granted ⟨s, op, v⟩ k = some (w', ends')) (hne : w' ≠ w)
    (hk : s.task k = some (.leased w ends)) : ends < s.now := by
  cases op with
  | tick | add | finish => cases hg
  | claim x asOf e ks =>
    simp only [granted, Option.ite_none_right_eq_some] at hg
    obtain ⟨hasOf, hfree⟩ := h.guard
    obtain ⟨t, ht, hf⟩ := hfree k hg.1
    rw [hk] at ht
    cases ht
    exact Int.lt_of_lt_of_le hf hasOf
  | renew x e =>
    simp only [granted, Option.ite_none_right_eq_some, Option.some.injEq, Prod.mk.injEq] at hg
    obtain ⟨⟨e', hh⟩, rfl, -⟩ := hg
    rw [hk] at hh
    cases hh
    exact absurd rfl hne

/-- A lease of the history has run out, or is that of the task, or the task is
done. -/
def Leases (tr : List (Trans (State K W O) (Op K W O))) (s : State K W O) : Prop :=
  ∀ w k ends, leaseOf tr w k = some ends → ∃ t, s.task k = some t ∧ t ≠ .waiting ∧
    (ends < s.now ∨ t = .leased w ends ∨ ∃ o, t = .done o)

theorem leases_step {tr : List (Trans (State K W O) (Op K W O))} {s v : State K W O}
    {op : Op K W O} (hi : Leases tr s) (h : Step s op v) : Leases (tr ++ [⟨s, op, v⟩]) v := by
  have hle := h.le
  intro w k ends he
  rw [leaseOf_snoc] at he
  cases hg : granted ⟨s, op, v⟩ k with
  | none =>
    simp only [hg] at he
    obtain ⟨t, ht, hne, hcase⟩ := hi w k ends he
    obtain ⟨t', ht', hne'⟩ := h.started ht hne
    refine ⟨t', ht', hne', ?_⟩
    rcases hcase with hlt | rfl | ⟨o, rfl⟩
    · exact .inl (Int.lt_of_lt_of_le hlt hle)
    · rcases ungranted_task h hg ht with hv | ⟨o, hv⟩
      · exact .inr (.inl (Option.some.inj (ht'.symm.trans hv)))
      · exact .inr (.inr ⟨o, Option.some.inj (ht'.symm.trans hv)⟩)
    · exact .inr (.inr ⟨o, Option.some.inj (ht'.symm.trans (h.done ht))⟩)
  | some p =>
    obtain ⟨w', ends'⟩ := p
    have hv := granted_task h hg
    refine ⟨_, hv, by simp, ?_⟩
    simp only [hg] at he
    by_cases hw : w' = w
    · subst hw
      rw [if_pos rfl] at he
      cases he
      exact .inr (.inl rfl)
    · -- another worker gets the task: the old lease is over
      rw [if_neg hw] at he
      obtain ⟨t, ht, -, hcase⟩ := hi w k ends he
      rcases hcase with hlt | rfl | ⟨o, rfl⟩
      · exact .inl (Int.lt_of_lt_of_le hlt hle)
      · exact .inl (Int.lt_of_lt_of_le (granted_takeover h hg hw ht) hle)
      · rw [h.done ht] at hv
        cases hv

theorem leases_run {tr : List (Trans (State K W O) (Op K W O))} {s : State K W O}
    (h : (system K W O).Run tr s) : Leases tr s := by
  refine h.induct (P := Leases) (fun s _ => ?_) fun tr s op v _ hi hst => leases_step hi hst
  intro w k ends he
  cases he

/-! ## Exclusive leases -/

theorem claim_exclusive {tr : List (Trans (State K W O) (Op K W O))} {s v : State K W O}
    (h : (system K W O).Run tr s) {w : W} {asOf ends : Int} {ks : Set K}
    (hst : Step s (.claim w asOf ends ks) v) {k : K} (hk : k ∈ ks) :
    (∃ t, s.task k = some t ∧ t.Free asOf) ∧
      ∀ w' ends', leaseOf tr w' k = some ends' → ends' < s.now := by
  obtain ⟨hasOf, hfree⟩ := hst.guard
  obtain ⟨t, ht, hf⟩ := hfree k hk
  refine ⟨⟨t, ht, hf⟩, fun w' ends' he => ?_⟩
  obtain ⟨t', ht', -, hcase⟩ := leases_run h w' k ends' he
  obtain rfl := Option.some.inj (ht.symm.trans ht')
  rcases hcase with hlt | rfl | ⟨o, rfl⟩
  · exact hlt
  · exact Int.lt_of_lt_of_le hf hasOf
  · exact hf.elim

theorem one_holder {tr : List (Trans (State K W O) (Op K W O))} {s : State K W O}
    (h : (system K W O).Run tr s) {k : K} (hk : ∀ o, s.task k ≠ some (.done o)) {w w' : W}
    (hne : w ≠ w') {ends ends' : Int} (he : leaseOf tr w k = some ends)
    (he' : leaseOf tr w' k = some ends') : ends < s.now ∨ ends' < s.now := by
  obtain ⟨t, ht, -, hcase⟩ := leases_run h w k ends he
  obtain ⟨t', ht', -, hcase'⟩ := leases_run h w' k ends' he'
  obtain rfl := Option.some.inj (ht.symm.trans ht')
  rcases hcase with hlt | rfl | ⟨o, rfl⟩
  · exact .inl hlt
  · rcases hcase' with hlt | heq | ⟨o, heq⟩
    · exact .inr hlt
    · cases heq
      exact absurd rfl hne
    · cases heq
  · exact absurd ht (hk o)

/-! ## Outcomes -/

theorem done_final {tr : List (Trans (State K W O) (Op K W O))} {s v : State K W O}
    (h : (system K W O).Path s tr v) {k : K} {o : O} (hk : s.task k = some (.done o)) :
    v.task k = some (.done o) := by
  induction h with
  | nil => exact hk
  | snoc _ hst ih => exact Step.done hst ih

/-- The transition gives the task its outcome. -/
def Finishes (k : K) (t : Trans (State K W O) (Op K W O)) : Prop :=
  ∃ w outcome, t.lbl = .finish w outcome ∧ Holds t.pre w k ∧ outcome k ≠ none

/-- However often workers report, a task is finished at most once, and then it
is done. -/
theorem finished_once {tr : List (Trans (State K W O) (Op K W O))} {s : State K W O}
    (h : (system K W O).Run tr s) (k : K) :
    tr.countP (fun t => decide (Finishes k t)) = 0 ∨
      (tr.countP (fun t => decide (Finishes k t)) = 1 ∧ ∃ o, s.task k = some (.done o)) := by
  refine h.induct (P := fun tr s => tr.countP (fun t => decide (Finishes k t)) = 0 ∨
    (tr.countP (fun t => decide (Finishes k t)) = 1 ∧ ∃ o, s.task k = some (.done o)))
    (fun s _ => .inl rfl) fun tr s op v _ ih hst => ?_
  have hstep : Step s op v := hst
  rw [List.countP_append, List.countP_singleton]
  by_cases hf : Finishes k ⟨s, op, v⟩
  · obtain ⟨w, outcome, rfl, hh, ho⟩ := hf
    obtain ⟨o, ho'⟩ := Option.ne_none_iff_exists'.mp ho
    have hv : v.task k = some (.done o) := by
      rw [hstep.task]
      simp only [after, ho']
      exact if_pos hh
    have hz : tr.countP (fun t => decide (Finishes k t)) = 0 := by
      refine ih.resolve_right fun hd => ?_
      obtain ⟨-, o', hd⟩ := hd
      obtain ⟨e, he⟩ := hh
      rw [hd] at he
      cases he
    rw [hz, if_pos (decide_eq_true ⟨w, outcome, rfl, hh, ho⟩)]
    exact .inr ⟨rfl, o, hv⟩
  · rw [if_neg (by simpa using hf)]
    refine ih.imp (fun hz => hz) fun hd => ⟨hd.1, ?_⟩
    obtain ⟨o, hd⟩ := hd.2
    exact ⟨o, hstep.done hd⟩

end BatchSystem.Core.LeaseQueue
