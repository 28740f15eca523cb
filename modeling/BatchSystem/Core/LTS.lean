import Mathlib.Data.List.Basic

/-!
# Labelled transition systems with histories

A run is kept with its history: the list of its transitions, oldest first,
each with the states before and after it (`Trans`). So "the last time that
..." and "the sum over all steps" are functions of the history, and an
invariant may relate the history to the state it ends in.

* `Run.induct`: the induction rule for such an invariant (`Reachable.induct` is
  the case that looks at the state only).
* `restrict`: the runs in which every step meets a condition on the state
  before it and on its label.
* `Refines`: every step of `M` is matched by at most one step of `N` under a
  map of states; `Refines.run` carries a whole run over.
* `ofFn`, `exec`: the system of a step function, and its execution on a list
  of labels.
-/
namespace BatchSystem.Core

structure LTS (S L : Type) where
  init : S → Prop
  step : S → L → S → Prop

/-- One transition of a run, with the states around it. -/
structure Trans (S L : Type) where
  pre : S
  lbl : L
  post : S

namespace LTS
variable {S L T K : Type} {M : LTS S L}

/-- The transitions `tr` lead from `s` to the last state. -/
inductive Path (M : LTS S L) (s : S) : List (Trans S L) → S → Prop
  | nil : Path M s [] s
  | snoc {tr : List (Trans S L)} {u v : S} {l : L} :
      Path M s tr u → M.step u l v → Path M s (tr ++ [⟨u, l, v⟩]) v

/-- `tr` is the history of a run from an initial state to `s`. -/
def Run (M : LTS S L) (tr : List (Trans S L)) (s : S) : Prop := ∃ s₀, M.init s₀ ∧ M.Path s₀ tr s

def Reachable (M : LTS S L) (s : S) : Prop := ∃ tr, M.Run tr s

/-! ## Paths -/

theorem Path.append {s u v : S} {tr₁ tr₂ : List (Trans S L)} (h₁ : M.Path s tr₁ u)
    (h₂ : M.Path u tr₂ v) : M.Path s (tr₁ ++ tr₂) v := by
  induction h₂ with
  | nil => simpa using h₁
  | snoc _ hs ih => rw [← List.append_assoc]; exact .snoc ih hs

theorem Path.single {s v : S} {l : L} (h : M.step s l v) : M.Path s [⟨s, l, v⟩] v :=
  show M.Path s ([] ++ [⟨s, l, v⟩]) v from .snoc .nil h

theorem Path.cons {s u v : S} {l : L} {tr : List (Trans S L)} (h : M.step s l u)
    (hp : M.Path u tr v) : M.Path s (⟨s, l, u⟩ :: tr) v :=
  (Path.single h).append hp

/-- A path splits at any of its transitions. -/
theorem Path.split {s v : S} {tr : List (Trans S L)} (h : M.Path s tr v) :
    ∀ {tr₁ t tr₂}, tr = tr₁ ++ t :: tr₂ →
      M.Path s tr₁ t.pre ∧ M.step t.pre t.lbl t.post ∧ M.Path t.post tr₂ v := by
  induction h with
  | nil => intro tr₁ t tr₂ he; simp at he
  | @snoc tr u v l hp hs ih =>
    intro tr₁ t tr₂ he
    rcases List.eq_nil_or_concat tr₂ with rfl | ⟨tr₃, x, rfl⟩
    · obtain ⟨rfl, ht⟩ := List.append_inj' he rfl
      simp only [List.cons.injEq, and_true] at ht; subst ht
      exact ⟨hp, hs, .nil⟩
    · rw [show tr₁ ++ t :: tr₃.concat x = (tr₁ ++ t :: tr₃) ++ [x] by simp] at he
      obtain ⟨rfl, hx⟩ := List.append_inj' he rfl
      simp only [List.cons.injEq, and_true] at hx; subst hx
      obtain ⟨h₁, h₂, h₃⟩ := ih rfl
      exact ⟨h₁, h₂, by simpa using h₃.snoc hs⟩

theorem Path.mem_step {s v : S} {tr : List (Trans S L)} (h : M.Path s tr v) {t : Trans S L}
    (ht : t ∈ tr) : M.step t.pre t.lbl t.post := by
  obtain ⟨tr₁, tr₂, he⟩ := List.append_of_mem ht
  exact (h.split he).2.1

/-! ## Runs -/

theorem Run.nil {s : S} (h : M.init s) : M.Run [] s := ⟨s, h, .nil⟩

theorem Run.snoc {tr : List (Trans S L)} {s v : S} {l : L} (h : M.Run tr s) (hs : M.step s l v) :
    M.Run (tr ++ [⟨s, l, v⟩]) v := by
  obtain ⟨s₀, h₀, hp⟩ := h
  exact ⟨s₀, h₀, hp.snoc hs⟩

theorem Run.append {tr₁ tr₂ : List (Trans S L)} {s v : S} (h : M.Run tr₁ s)
    (hp : M.Path s tr₂ v) : M.Run (tr₁ ++ tr₂) v := by
  obtain ⟨s₀, h₀, hp₀⟩ := h
  exact ⟨s₀, h₀, hp₀.append hp⟩

theorem Run.split {tr₁ tr₂ : List (Trans S L)} {t : Trans S L} {v : S}
    (h : M.Run (tr₁ ++ t :: tr₂) v) :
    M.Run tr₁ t.pre ∧ M.step t.pre t.lbl t.post ∧ M.Path t.post tr₂ v := by
  obtain ⟨s₀, h₀, hp⟩ := h
  obtain ⟨h₁, h₂, h₃⟩ := hp.split rfl
  exact ⟨⟨s₀, h₀, h₁⟩, h₂, h₃⟩

theorem Run.reachable {tr : List (Trans S L)} {s : S} (h : M.Run tr s) : M.Reachable s := ⟨tr, h⟩

/-- **Run induction.** What holds of the empty history and survives one more
step holds of every run. -/
theorem Run.induct {P : List (Trans S L) → S → Prop} (h₀ : ∀ s, M.init s → P [] s)
    (hs : ∀ tr s l v, M.Run tr s → P tr s → M.step s l v → P (tr ++ [⟨s, l, v⟩]) v)
    {tr : List (Trans S L)} {s : S} (h : M.Run tr s) : P tr s := by
  obtain ⟨s₀, hi, hp⟩ := h
  induction hp with
  | nil => exact h₀ _ hi
  | snoc hp hst ih => exact hs _ _ _ _ ⟨s₀, hi, hp⟩ ih hst

/-- A step of a reachable state leads to a reachable state. -/
theorem Reachable.step {s v : S} {l : L} (h : M.Reachable s) (hs : M.step s l v) :
    M.Reachable v := by
  obtain ⟨tr, hr⟩ := h
  exact ⟨_, hr.snoc hs⟩

theorem Reachable.path {s v : S} {tr : List (Trans S L)} (h : M.Reachable s)
    (hp : M.Path s tr v) : M.Reachable v := by
  obtain ⟨tr₀, hr⟩ := h
  exact ⟨_, hr.append hp⟩

/-- An invariant: initial, and preserved from reachable states. -/
theorem Reachable.induct {I : S → Prop} (h₀ : ∀ s, M.init s → I s)
    (hs : ∀ s l v, M.Reachable s → I s → M.step s l v → I v) {s : S} (h : M.Reachable s) :
    I s := by
  obtain ⟨tr, hr⟩ := h
  exact hr.induct (P := fun _ s => I s) h₀ fun _ s l v hr hi hst => hs s l v hr.reachable hi hst

/-- What every step from a reachable state carries on holds to the end of any
path. -/
theorem Path.preserve {I : S → Prop} (hs : ∀ s l v, M.Reachable s → I s → M.step s l v → I v)
    {s v : S} {tr : List (Trans S L)} (h : M.Path s tr v) (hr : M.Reachable s) (hi : I s) :
    I v := by
  induction h with
  | nil => exact hi
  | snoc hp hst ih => exact hs _ _ _ (hr.path hp) ih hst

/-! ## Restricted systems -/

/-- The system with only those steps whose state and label meet `C`. -/
def restrict (M : LTS S L) (C : S → L → Prop) : LTS S L where
  init := M.init
  step s l v := M.step s l v ∧ C s l

theorem Path.of_restrict {C : S → L → Prop} {s v : S} {tr : List (Trans S L)}
    (h : (M.restrict C).Path s tr v) : M.Path s tr v := by
  induction h with
  | nil => exact .nil
  | snoc _ hs ih => exact ih.snoc hs.1

theorem Run.of_restrict {C : S → L → Prop} {s : S} {tr : List (Trans S L)}
    (h : (M.restrict C).Run tr s) : M.Run tr s := by
  obtain ⟨s₀, h₀, hp⟩ := h
  exact ⟨s₀, h₀, hp.of_restrict⟩

theorem Reachable.of_restrict {C : S → L → Prop} {s : S} (h : (M.restrict C).Reachable s) :
    M.Reachable s := by
  obtain ⟨tr, hr⟩ := h
  exact ⟨tr, hr.of_restrict⟩

theorem Path.restrict {C : S → L → Prop} {s v : S} {tr : List (Trans S L)} (h : M.Path s tr v)
    (hc : ∀ t ∈ tr, C t.pre t.lbl) : (M.restrict C).Path s tr v := by
  induction h with
  | nil => exact .nil
  | snoc _ hs ih =>
    exact (ih fun t ht => hc t (List.mem_append_left _ ht)).snoc
      ⟨hs, hc _ (List.mem_append_right _ List.mem_cons_self)⟩

/-! ## Refinement -/

/-- `M` refines `N` under the state map `f` and the partial label map `g`: a
step with an image is a step of `N`, any other leaves the image alone. -/
structure Refines (M : LTS S L) (N : LTS T K) (f : S → T) (g : S → L → Option K) : Prop where
  init : ∀ s, M.init s → N.init (f s)
  step : ∀ s l v, M.Reachable s → M.step s l v →
    match g s l with
    | none => f v = f s
    | some k => N.step (f s) k (f v)

/-- The image of a transition. -/
def mapTrans (f : S → T) (g : S → L → Option K) (t : Trans S L) : Option (Trans T K) :=
  (g t.pre t.lbl).map fun k => ⟨f t.pre, k, f t.post⟩

theorem Refines.run {N : LTS T K} {f : S → T} {g : S → L → Option K} (h : Refines M N f g)
    {tr : List (Trans S L)} {s : S} (hr : M.Run tr s) :
    N.Run (tr.filterMap (mapTrans f g)) (f s) := by
  refine hr.induct (P := fun tr s => N.Run (tr.filterMap (mapTrans f g)) (f s)) ?_ ?_
  · intro s hs
    exact .nil (h.init s hs)
  · intro tr s l v hr ih hst
    have hm := h.step s l v hr.reachable hst
    cases hg : g s l with
    | none =>
      simp only [hg] at hm
      simpa [List.filterMap_append, mapTrans, hg, hm] using ih
    | some k =>
      simp only [hg] at hm
      simpa [List.filterMap_append, mapTrans, hg] using ih.snoc hm

theorem Refines.reachable {N : LTS T K} {f : S → T} {g : S → L → Option K} (h : Refines M N f g)
    {s : S} (hr : M.Reachable s) : N.Reachable (f s) := by
  obtain ⟨tr, hr⟩ := hr
  exact ⟨_, h.run hr⟩

/-! ## Step functions -/

/-- The system of a step function. -/
def ofFn (init : S → Prop) (step : S → L → Option S) : LTS S L where
  init := init
  step s l v := step s l = some v

/-- The history that a list of labels produces, with the state it ends in. -/
def exec (step : S → L → Option S) : S → List L → Option (List (Trans S L) × S)
  | s, [] => some ([], s)
  | s, l :: ls =>
    (step s l).bind fun u => (exec step u ls).map fun r => (⟨s, l, u⟩ :: r.1, r.2)

theorem path_of_exec {init : S → Prop} {step : S → L → Option S} :
    ∀ {ls : List L} {s v : S} {tr : List (Trans S L)}, exec step s ls = some (tr, v) →
      (ofFn init step).Path s tr v
  | [], s, v, tr, h => by
    simp only [exec, Option.some.injEq, Prod.mk.injEq] at h
    obtain ⟨rfl, rfl⟩ := h
    exact .nil
  | l :: ls, s, v, tr, h => by
    simp only [exec, Option.bind_eq_some_iff, Option.map_eq_some_iff] at h
    obtain ⟨u, hu, ⟨tr', v'⟩, hr, he⟩ := h
    simp only [Prod.mk.injEq] at he
    obtain ⟨rfl, rfl⟩ := he
    exact .cons hu (path_of_exec hr)

theorem lbl_of_exec {step : S → L → Option S} :
    ∀ {ls : List L} {s v : S} {tr : List (Trans S L)}, exec step s ls = some (tr, v) →
      ∀ t ∈ tr, t.lbl ∈ ls
  | [], s, v, tr, h => by
    simp only [exec, Option.some.injEq, Prod.mk.injEq] at h
    obtain ⟨rfl, rfl⟩ := h
    exact fun _ ht => nomatch ht
  | l :: ls, s, v, tr, h => by
    simp only [exec, Option.bind_eq_some_iff, Option.map_eq_some_iff] at h
    obtain ⟨u, hu, ⟨tr', v'⟩, hr, he⟩ := h
    simp only [Prod.mk.injEq] at he
    obtain ⟨rfl, rfl⟩ := he
    intro t ht
    rcases List.mem_cons.mp ht with rfl | ht
    · exact List.mem_cons_self
    · exact List.mem_cons_of_mem _ (lbl_of_exec hr t ht)

/-- An execution whose labels meet a condition is a restricted run. -/
theorem restrict_of_exec {init : S → Prop} {step : S → L → Option S} {C : S → L → Prop} {s v : S}
    {ls : List L} {tr : List (Trans S L)} (h₀ : init s) (h : exec step s ls = some (tr, v))
    (hc : ∀ l ∈ ls, ∀ u, C u l) : ((ofFn init step).restrict C).Run tr v :=
  ⟨s, h₀, (path_of_exec h).restrict fun t ht => hc _ (lbl_of_exec h t ht) _⟩

end LTS
end BatchSystem.Core
