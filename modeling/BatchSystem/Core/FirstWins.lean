import Mathlib.Data.List.Nodup
import Mathlib.Data.Finset.Card

/-!
# First writer wins

Elements arrive in order and each has a key. An element is kept when its key
is neither taken beforehand (`seen`) nor carried by an earlier element of the
list. This is a keyed insertion that ignores conflicts.

* `mem_firstWins`: what is kept, in terms of positions in the list.
* `firstWins_append`: a list may be fed in pieces.
* `firstWins_length_eq`: nothing is dropped iff all keys are new and distinct.
-/
namespace BatchSystem.Core

variable {α β κ : Type} [DecidableEq κ] (key : α → κ)

def firstWins : List κ → List α → List α
  | _, [] => []
  | seen, x :: xs =>
    if key x ∈ seen then firstWins seen xs else x :: firstWins (key x :: seen) xs

variable {key}

theorem firstWins_sublist : ∀ (seen : List κ) (xs : List α), (firstWins key seen xs).Sublist xs
  | _, [] => .slnil
  | seen, x :: xs => by
    simp only [firstWins]
    split
    · exact (firstWins_sublist seen xs).cons x
    · exact (firstWins_sublist (key x :: seen) xs).cons_cons x

theorem mem_firstWins {y : α} : ∀ {seen : List κ} {xs : List α}, y ∈ firstWins key seen xs ↔
    key y ∉ seen ∧ ∃ pre post, xs = pre ++ y :: post ∧ key y ∉ pre.map key
  | _, [] => by simp [firstWins]
  | seen, x :: xs => by
    simp only [firstWins]
    split
    · rename_i hx
      rw [mem_firstWins]
      refine and_congr_right fun hy => ⟨?_, ?_⟩
      · rintro ⟨pre, post, rfl, hpre⟩
        refine ⟨x :: pre, post, rfl, ?_⟩
        simp only [List.map_cons, List.mem_cons, not_or]
        exact ⟨fun e => hy (e ▸ hx), hpre⟩
      · rintro ⟨pre, post, he, hpre⟩
        cases pre with
        | nil =>
          simp only [List.nil_append, List.cons.injEq] at he
          exact absurd (he.1 ▸ hx) hy
        | cons p pre =>
          simp only [List.cons_append, List.cons.injEq] at he
          simp only [List.map_cons, List.mem_cons, not_or] at hpre
          exact ⟨pre, post, he.2, hpre.2⟩
    · rename_i hx
      rw [List.mem_cons, mem_firstWins]
      constructor
      · rintro (rfl | ⟨hy, pre, post, rfl, hpre⟩)
        · exact ⟨hx, [], xs, rfl, by simp⟩
        · simp only [List.mem_cons, not_or] at hy
          exact ⟨hy.2, x :: pre, post, rfl, by simp [hpre, hy.1]⟩
      · rintro ⟨hy, pre, post, he, hpre⟩
        cases pre with
        | nil =>
          simp only [List.nil_append, List.cons.injEq] at he
          exact .inl he.1.symm
        | cons p pre =>
          simp only [List.cons_append, List.cons.injEq] at he
          simp only [List.map_cons, List.mem_cons, not_or, ← he.1] at hpre
          exact .inr ⟨by simp [hy, hpre.1], pre, post, he.2, hpre.2⟩

theorem firstWins_subset {y : α} {seen : List κ} {xs : List α} (h : y ∈ firstWins key seen xs) :
    y ∈ xs :=
  (firstWins_sublist seen xs).subset h

/-- The keys kept: those that were not taken. -/
theorem mem_firstWins_keys {k : κ} {seen : List κ} {xs : List α} :
    k ∈ (firstWins key seen xs).map key ↔ k ∉ seen ∧ k ∈ xs.map key := by
  induction xs generalizing seen with
  | nil => simp [firstWins]
  | cons x xs ih =>
    simp only [firstWins]
    split
    · rename_i hx
      rw [ih]
      simp only [List.map_cons, List.mem_cons]
      refine and_congr_right fun hk => ⟨.inr, ?_⟩
      rintro (rfl | h)
      · exact absurd hx hk
      · exact h
    · rename_i hx
      simp only [List.map_cons, List.mem_cons, ih, not_or]
      by_cases hk : k = key x
      · simp [hk, hx]
      · simp [hk]

/-- An element whose new key no other one carries is kept. -/
theorem mem_firstWins_of_sole {y : α} {seen : List κ} {xs : List α} (hs : key y ∉ seen)
    (hy : y ∈ xs) (hu : ∀ x ∈ xs, key x = key y → x = y) : y ∈ firstWins key seen xs := by
  have hk : key y ∈ (firstWins key seen xs).map key :=
    mem_firstWins_keys.mpr ⟨hs, List.mem_map_of_mem hy⟩
  obtain ⟨x, hx, he⟩ := List.mem_map.mp hk
  rwa [← hu x (firstWins_subset hx) he]

/-- The element kept for a new key is the first one of the list with that key. -/
theorem find?_firstWins {k : κ} {seen : List κ} (hk : k ∉ seen) (xs : List α) :
    (firstWins key seen xs).find? (fun x => key x = k) = xs.find? fun x => key x = k := by
  induction xs generalizing seen with
  | nil => rfl
  | cons x xs ih =>
    simp only [firstWins]
    by_cases hx : key x = k
    · rw [if_neg (hx ▸ hk), List.find?_cons_of_pos (by simpa using hx),
        List.find?_cons_of_pos (by simpa using hx)]
    · rw [List.find?_cons_of_neg (by simpa using hx)]
      split
      · exact ih hk
      · rw [List.find?_cons_of_neg (by simpa using hx)]
        refine ih ?_
        simp only [List.mem_cons, not_or]
        exact ⟨fun e => hx e.symm, hk⟩

theorem firstWins_keys_nodup : ∀ (seen : List κ) (xs : List α),
    ((firstWins key seen xs).map key).Nodup
  | _, [] => .nil
  | seen, x :: xs => by
    simp only [firstWins]
    split
    · exact firstWins_keys_nodup seen xs
    · rw [List.map_cons, List.nodup_cons]
      refine ⟨?_, firstWins_keys_nodup _ xs⟩
      rw [mem_firstWins_keys]
      exact fun h => h.1 List.mem_cons_self

/-- Only the set of taken keys matters. -/
theorem firstWins_congr {s₁ s₂ : List κ} {xs : List α} (h : ∀ x ∈ xs, key x ∈ s₁ ↔ key x ∈ s₂) :
    firstWins key s₁ xs = firstWins key s₂ xs := by
  induction xs generalizing s₁ s₂ with
  | nil => rfl
  | cons x xs ih =>
    have hx := h x List.mem_cons_self
    have hxs := fun y hy => h y (List.mem_cons_of_mem x hy)
    simp only [firstWins]
    by_cases h₁ : key x ∈ s₁
    · rw [if_pos h₁, if_pos (hx.mp h₁), ih hxs]
    · rw [if_neg h₁, if_neg (fun h₂ => h₁ (hx.mpr h₂))]
      congr 1
      exact ih fun y hy => by simp [hxs y hy]

theorem firstWins_append (seen : List κ) (xs ys : List α) : firstWins key seen (xs ++ ys) =
    firstWins key seen xs ++ firstWins key (xs.map key ++ seen) ys := by
  induction xs generalizing seen with
  | nil => simp [firstWins]
  | cons x xs ih =>
    simp only [List.cons_append, firstWins]
    split
    · rename_i hx
      rw [ih, List.append_cancel_left_eq]
      refine firstWins_congr fun y _ => ?_
      simp only [List.map_cons, List.cons_append, List.mem_cons, List.mem_append]
      by_cases hy : key y = key x
      · simp [hy, hx]
      · simp [hy]
    · rw [ih, List.cons_append]
      congr 2
      exact firstWins_congr fun y _ => by
        simp only [List.map_cons, List.cons_append, List.mem_cons, List.mem_append]; tauto

/-- A list whose keys are all taken adds nothing. -/
theorem firstWins_eq_nil {seen : List κ} {xs : List α} (h : ∀ x ∈ xs, key x ∈ seen) :
    firstWins key seen xs = [] := by
  rw [List.eq_nil_iff_forall_not_mem]
  intro y hy
  exact (mem_firstWins.mp hy).1 (h y (firstWins_subset hy))

/-- Distinct new keys: everything is kept. -/
theorem firstWins_eq_self {seen : List κ} {xs : List α} (hs : ∀ x ∈ xs, key x ∉ seen)
    (hn : (xs.map key).Nodup) : firstWins key seen xs = xs := by
  induction xs generalizing seen with
  | nil => rfl
  | cons x xs ih =>
    simp only [List.map_cons, List.nodup_cons] at hn
    simp only [firstWins, if_neg (hs x List.mem_cons_self)]
    congr 1
    refine ih (fun y hy => ?_) hn.2
    simp only [List.mem_cons, not_or]
    exact ⟨fun e => hn.1 (e ▸ List.mem_map_of_mem hy), hs y (List.mem_cons_of_mem x hy)⟩

theorem firstWins_length_eq {xs : List α} :
    (firstWins key [] xs).length = xs.length ↔ (xs.map key).Nodup := by
  constructor
  · intro h
    have hs : (firstWins key [] xs).Sublist xs := firstWins_sublist [] xs
    exact hs.eq_of_length h ▸ firstWins_keys_nodup [] xs
  · intro h
    rw [firstWins_eq_self (fun _ _ => List.not_mem_nil) h]

/-- A map of elements that keeps their keys commutes with the choice. -/
theorem map_firstWins (f : α → β) {key' : β → κ} (hk : ∀ x, key' (f x) = key x) :
    ∀ (seen : List κ) (xs : List α),
      (firstWins key seen xs).map f = firstWins key' seen (xs.map f)
  | _, [] => rfl
  | seen, x :: xs => by
    simp only [List.map_cons, firstWins, hk]
    split
    · exact map_firstWins f hk seen xs
    · rw [List.map_cons, map_firstWins f hk (key x :: seen) xs]

end BatchSystem.Core
