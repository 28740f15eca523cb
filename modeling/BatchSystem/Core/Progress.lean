import BatchSystem.Core.LTS
import Mathlib.Algebra.BigOperators.Group.Finset.Basic

/-!
# Systems that come to an end

A rank that no step raises and that some steps, the steps of progress, lower:
a run makes at most as many steps of progress as the rank it starts with
(`Ranked.count_le`), and a schedule that does not put progress off for ever
comes to a state without any (`Ranked.ends`). The rank of a system may be a sum
over its components (`sum_change`), and a path to the end is the beginning of such
a schedule (`exists_schedule`).
-/
namespace BatchSystem.Core.LTS

variable {S L : Type} {M : LTS S L} {progress : L → Bool} {rank : S → Nat}

structure Ranked (M : LTS S L) (progress : L → Bool) (rank : S → Nat) : Prop where
  keeps : ∀ s l v, M.Reachable s → M.step s l v → rank v ≤ rank s
  lowers : ∀ s l v, M.Reachable s → M.step s l v → progress l = true → rank v < rank s

/-- An infinite run. -/
structure Schedule (M : LTS S L) (state : Nat → S) (label : Nat → L) : Prop where
  init : M.init (state 0)
  step : ∀ n, M.step (state n) (label n) (state (n + 1))

/-- Some step of progress is possible. -/
def MayProgress (M : LTS S L) (progress : L → Bool) (s : S) : Prop :=
  ∃ l v, progress l = true ∧ M.step s l v

/-- When progress is possible, it is made at some time. -/
def Fair (M : LTS S L) (progress : L → Bool) (state : Nat → S) (label : Nat → L) : Prop :=
  ∀ n, M.MayProgress progress (state n) → ∃ m, n ≤ m ∧ progress (label m) = true

theorem Ranked.count_le (h : M.Ranked progress rank) {s₀ s : S} {tr : List (Trans S L)}
    (h₀ : M.init s₀) (hp : M.Path s₀ tr s) :
    tr.countP (fun t => progress t.lbl) + rank s ≤ rank s₀ := by
  induction hp with
  | nil => simp
  | @snoc tr u v l hp hst ih =>
    have hreach : M.Reachable u := ⟨tr, s₀, h₀, hp⟩
    have hk := h.keeps u l v hreach hst
    rw [List.countP_append, List.countP_singleton]
    split
    · rename_i hl
      have := h.lowers u l v hreach hst hl
      omega
    · omega

theorem Schedule.reachable {state : Nat → S} {label : Nat → L} (h : M.Schedule state label) :
    ∀ n, M.Reachable (state n) := by
  intro n
  induction n with
  | zero => exact ⟨[], .nil h.init⟩
  | succ n ih =>
    obtain ⟨tr, hr⟩ := ih
    exact ⟨_, hr.snoc (h.step n)⟩

theorem Ranked.antitone (h : M.Ranked progress rank) {state : Nat → S} {label : Nat → L}
    (hs : M.Schedule state label) {n m : Nat} (hnm : n ≤ m) : rank (state m) ≤ rank (state n) := by
  induction hnm with
  | refl => exact Nat.le_refl _
  | step hnm ih => exact Nat.le_trans (h.keeps _ _ _ (hs.reachable _) (hs.step _)) ih

/-- A fair schedule comes to a state in which no progress is possible. -/
theorem Ranked.ends (h : M.Ranked progress rank) {state : Nat → S} {label : Nat → L}
    (hs : M.Schedule state label) (hf : M.Fair progress state label) :
    ∃ n, ¬ M.MayProgress progress (state n) := by
  -- by induction on the rank that is left
  suffices hk : ∀ k n, rank (state n) ≤ k → ∃ m, ¬ M.MayProgress progress (state m) from
    hk _ 0 (Nat.le_refl _)
  intro k
  induction k with
  | zero =>
    intro n hn
    refine ⟨n, fun ⟨l, v, hl, hst⟩ => ?_⟩
    have := h.lowers _ l v (hs.reachable n) hst hl
    omega
  | succ k ih =>
    intro n hn
    by_cases hp : M.MayProgress progress (state n)
    · obtain ⟨m, hnm, hl⟩ := hf n hp
      have hle := h.antitone hs hnm
      have hlt := h.lowers _ _ _ (hs.reachable m) (hs.step m) hl
      exact ih (m + 1) (by omega)
    · exact ⟨n, hp⟩

/-- The runs of a system from one of its states. -/
def startAt (M : LTS S L) (s₀ : S) : LTS S L := { M with init := fun s => s = s₀ }

theorem Path.startAt {s₀ s u : S} {tr : List (Trans S L)} (h : M.Path s tr u) :
    (M.startAt s₀).Path s tr u := by
  induction h with
  | nil => exact .nil
  | snoc _ hst ih => exact .snoc ih hst

theorem Path.head {s u : S} {tr : List (Trans S L)} (h : M.Path s tr u) :
    tr.head?.elim u Trans.pre = s := by
  cases tr with
  | nil =>
    generalize he : ([] : List (Trans S L)) = tr at h
    cases h with
    | nil => rfl
    | snoc => simp at he
  | cons t tr =>
    obtain ⟨h₁, -, -⟩ := h.split (List.nil_append _).symm
    generalize he : ([] : List (Trans S L)) = tr at h₁
    cases h₁ with
    | nil => rfl
    | snoc => simp at he

/-- A path that ends with progress, in a state that may stay and makes no more, is
the beginning of a fair schedule. -/
theorem exists_schedule {s₀ s : S} {tr : List (Trans S L)} {l : L} (h₀ : M.init s₀)
    (hp : M.Path s₀ tr s) (hlast : ∀ t ∈ tr.getLast?, progress t.lbl = true) (hl : M.step s l s)
    (hend : ¬ M.MayProgress progress s) :
    ∃ state label, M.Schedule state label ∧ M.Fair progress state label := by
  refine ⟨fun n => tr[n]?.elim s Trans.pre, fun n => tr[n]?.elim l Trans.lbl, ⟨?_, fun n => ?_⟩,
    fun n hmay => ?_⟩
  · simp only [← List.head?_eq_getElem?, hp.head]
    exact h₀
  · cases ht : tr[n]? with
    | none =>
      have hlen : tr.length ≤ n := List.getElem?_eq_none_iff.mp ht
      rw [List.getElem?_eq_none (Nat.le_succ_of_le hlen)]
      exact hl
    | some t =>
      obtain ⟨hn, rfl⟩ := List.getElem?_eq_some_iff.mp ht
      have hsplit : tr = tr.take n ++ tr[n] :: tr.drop (n + 1) := by
        rw [List.cons_getElem_drop_succ, List.take_append_drop]
      obtain ⟨-, hst, hrest⟩ := hp.split hsplit
      have hpost := hrest.head
      rw [List.head?_drop] at hpost
      simp only [Option.elim_some, hpost]
      exact hst
  · by_cases hn : n < tr.length
    · refine ⟨tr.length - 1, by omega, ?_⟩
      have hget := List.getLast?_eq_getElem? (l := tr)
      cases hx : tr[tr.length - 1]? with
      | none => exact absurd (List.getElem?_eq_none_iff.mp hx) (by omega)
      | some t =>
        simp only [hx, Option.elim_some]
        exact hlast t (hget.trans hx)
    · simp only [List.getElem?_eq_none (Nat.le_of_not_lt hn), Option.elim_none] at hmay
      exact absurd hmay hend

/-- One component of a sum changes. -/
theorem sum_change {ι : Type} [DecidableEq ι] {t : Finset ι} {f g : ι → Nat} {a : ι} (ha : a ∈ t)
    (h : ∀ x ∈ t, x ≠ a → g x = f x) : ∑ x ∈ t, g x + f a = ∑ x ∈ t, f x + g a := by
  have hrest : ∑ x ∈ t.erase a, g x = ∑ x ∈ t.erase a, f x :=
    Finset.sum_congr rfl fun x hx => h x (Finset.mem_of_mem_erase hx) (Finset.ne_of_mem_erase hx)
  rw [← Finset.add_sum_erase t f ha, ← Finset.add_sum_erase t g ha, hrest]
  omega

end BatchSystem.Core.LTS
