import Mathlib.Algebra.GroupWithZero.Nat
import Mathlib.Data.List.Forall2
import Mathlib.Data.List.Perm.Basic
import Mathlib.Data.List.Dedup
import Mathlib.Data.Fintype.EquivFin

/-!
# Lists changed at one place, position by position, and block by block

* `countP_set_toNat`, `sum_map_set`: a count and a sum after one element changed.
* `Forall₂.mem_left` and the like: lists that correspond position by position.
* `flatMap_filter_perm`: the blocks of equal keys make up the list.
* `exists_fresh_list`: new elements of an infinite type.
-/
namespace BatchSystem.Core

variable {α β γ : Type}

/-! ## One element -/

theorem countP_set_toNat {p : α → Bool} {l : List α} {i : Nat} {a b : α} (h : l[i]? = some a) :
    (l.set i b).countP p + (p a).toNat = l.countP p + (p b).toNat := by
  induction l generalizing i with
  | nil => cases h
  | cons x l ih =>
    cases i with
    | zero =>
      cases h
      simp only [List.set_cons_zero, List.countP_cons]
      cases p a <;> cases p b <;> simp
    | succ i =>
      have := ih (i := i) h
      simp only [List.set_cons_succ, List.countP_cons]
      omega

theorem sum_map_set {f : α → Nat} {l : List α} {i : Nat} {a b : α} (h : l[i]? = some a) :
    ((l.set i b).map f).sum + f a = (l.map f).sum + f b := by
  induction l generalizing i with
  | nil => cases h
  | cons x l ih =>
    cases i with
    | zero =>
      cases h
      simp only [List.set_cons_zero, List.map_cons, List.sum_cons]
      omega
    | succ i =>
      have := ih (i := i) h
      simp only [List.set_cons_succ, List.map_cons, List.sum_cons]
      omega

theorem forall₂_set {R : α → α → Prop} (hr : ∀ x, R x x) {l : List α} {i : Nat} {a b : α}
    (h : l[i]? = some a) (hab : R a b) : List.Forall₂ R l (l.set i b) := by
  induction l generalizing i with
  | nil => cases h
  | cons x l ih =>
    cases i with
    | zero =>
      cases h
      exact .cons hab (List.forall₂_same.mpr fun y _ => hr y)
    | succ i => exact .cons (hr x) (ih h)

/-! ## Position by position -/

section forall₂
variable {R S : α → β → Prop} {l : List α} {m : List β}

theorem forall₂_mem_left (h : List.Forall₂ R l m) {a : α} (ha : a ∈ l) : ∃ b ∈ m, R a b := by
  induction h with
  | nil => cases ha
  | cons hr h ih =>
    rcases List.mem_cons.mp ha with rfl | ha
    · exact ⟨_, List.mem_cons_self, hr⟩
    · obtain ⟨b, hb, hab⟩ := ih ha
      exact ⟨b, List.mem_cons_of_mem _ hb, hab⟩

theorem forall₂_mem_right (h : List.Forall₂ R l m) {b : β} (hb : b ∈ m) : ∃ a ∈ l, R a b :=
  forall₂_mem_left h.flip hb

theorem forall₂_imp_mem (h : List.Forall₂ R l m) (hs : ∀ a ∈ l, ∀ b ∈ m, R a b → S a b) :
    List.Forall₂ S l m := by
  induction h with
  | nil => exact .nil
  | cons hr h ih =>
    refine .cons (hs _ List.mem_cons_self _ List.mem_cons_self hr) (ih fun a ha b hb => ?_)
    exact hs a (List.mem_cons_of_mem _ ha) b (List.mem_cons_of_mem _ hb)

theorem forall₂_comp {T : α → γ → Prop} {S' : β → γ → Prop} {n : List γ}
    (h : List.Forall₂ R l m) (h' : List.Forall₂ S' m n) (ht : ∀ a b c, R a b → S' b c → T a c) :
    List.Forall₂ T l n := by
  induction h generalizing n with
  | nil =>
    cases h'
    exact .nil
  | cons hr h ih =>
    cases h' with
    | cons hs h' => exact .cons (ht _ _ _ hr hs) (ih h')

theorem countP_le_of_forall₂ {p : α → Bool} {q : β → Bool} (h : List.Forall₂ R l m)
    (hle : ∀ a b, R a b → q b = true → p a = true) : m.countP q ≤ l.countP p := by
  induction h with
  | nil => exact Nat.le_refl _
  | @cons a b l m hr _ ih =>
    simp only [List.countP_cons]
    cases hq : q b with
    | false =>
      simp only [Bool.false_eq_true, if_false]
      omega
    | true =>
      rw [if_pos rfl, if_pos (hle a b hr hq)]
      omega

/-- Fewer elements are counted when one stops to be, and none begins to be. -/
theorem countP_lt_of_forall₂ {p : α → Bool} {q : β → Bool} (h : List.Forall₂ R l m)
    (hle : ∀ a b, R a b → q b = true → p a = true)
    (hlt : ∃ a ∈ l, p a = true ∧ ∀ b, R a b → q b = false) : m.countP q < l.countP p := by
  induction h with
  | nil =>
    obtain ⟨a, ha, -⟩ := hlt
    cases ha
  | @cons a b l m hr h ih =>
    have hrest := countP_le_of_forall₂ h hle
    have hab := hle a b hr
    obtain ⟨c, hc, hp, hq⟩ := hlt
    simp only [List.countP_cons]
    rcases List.mem_cons.mp hc with rfl | hc
    · rw [if_pos hp, hq b hr]
      simp only [Bool.false_eq_true, if_false]
      omega
    · have := ih ⟨c, hc, hp, hq⟩
      split
      · rename_i hb
        rw [if_pos (hab hb)]
        omega
      · omega

end forall₂

/-- New elements of an infinite type. -/
theorem exists_fresh_list [Infinite α] (used : List α) (n : Nat) :
    ∃ l : List α, l.length = n ∧ l.Nodup ∧ ∀ a ∈ l, a ∉ used := by
  classical
  induction n with
  | zero => exact ⟨[], rfl, .nil, by simp⟩
  | succ n ih =>
    obtain ⟨l, hlen, hn, hl⟩ := ih
    obtain ⟨a, ha⟩ := Infinite.exists_notMem_finset (used ++ l).toFinset
    rw [List.mem_toFinset, List.mem_append, not_or] at ha
    refine ⟨a :: l, by rw [List.length_cons, hlen], List.nodup_cons.mpr ⟨ha.2, hn⟩, fun b hb => ?_⟩
    rcases List.mem_cons.mp hb with rfl | hb
    · exact ha.1
    · exact hl b hb

/-! ## Block by block -/

/-- The elements whose key is among distinct keys, key after key. -/
theorem flatMap_filter_perm [DecidableEq γ] (key : α → γ) (l : List α) {ks : List γ}
    (hk : ks.Nodup) : (ks.flatMap fun k => l.filter fun a => key a = k).Perm
      (l.filter fun a => key a ∈ ks) := by
  induction ks with
  | nil => simp
  | cons k ks ih =>
    obtain ⟨hnot, hk⟩ := List.nodup_cons.mp hk
    rw [List.flatMap_cons]
    have hsplit := List.filter_append_perm (fun a => key a = k) (l.filter fun a => key a ∈ k :: ks)
    refine List.Perm.trans (List.Perm.append ?_ ((ih hk).trans ?_)) hsplit
    · rw [List.filter_filter]
      refine List.Perm.of_eq (List.filter_congr fun a _ => ?_)
      by_cases h : key a = k <;> simp [h]
    · rw [List.filter_filter]
      refine List.Perm.of_eq (List.filter_congr fun a _ => ?_)
      by_cases h : key a = k
      · simp [h, hnot]
      · simp [h]

end BatchSystem.Core
