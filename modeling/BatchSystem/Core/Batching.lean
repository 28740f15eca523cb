import Mathlib.Data.List.Forall2

/-!
# Accumulate and flush

A buffer that hands its contents on whenever it holds `n` elements, and once
more at the end. What it has handed on is the input cut into blocks of `n`
(`drain_push`), so the element at index `i` travels in block `i / n`
(`Blocks.split_at`) with those of the same quotient (`Blocks.mem_block`), and
the first `b` blocks are the first `n * b` elements (`Blocks.flatten_take`).
-/
namespace BatchSystem.Core

variable {α : Type}

structure Buffer (α : Type) where
  held : List α := []
  handed : List (List α) := []

namespace Buffer

/-- Hands on what is held, if anything. -/
def drain (b : Buffer α) : Buffer α :=
  if b.held = [] then b else { held := [], handed := b.handed ++ [b.held] }

def push (n : Nat) (b : Buffer α) (x : α) : Buffer α :=
  let c : Buffer α := { b with held := b.held ++ [x] }
  if n ≤ c.held.length then c.drain else c

end Buffer

/-- `bs` is `xs` cut into blocks of `n`; the last one may be shorter. -/
inductive Blocks (n : Nat) : List (List α) → List α → Prop
  | nil : Blocks n [] []
  | last {b : List α} (h : b ≠ []) (hn : b.length ≤ n) : Blocks n [b] b
  | cons {b : List α} {bs : List (List α)} {xs : List α} (hn : b.length = n) (h : Blocks n bs xs) :
      Blocks n (b :: bs) (b ++ xs)

namespace Blocks
variable {n : Nat} {bs : List (List α)} {xs : List α}

theorem flatten_eq (h : Blocks n bs xs) : bs.flatten = xs := by
  induction h with
  | nil => rfl
  | last => simp
  | cons _ _ ih => rw [List.flatten_cons, ih]

/-- The first `b` blocks are the first `n * b` elements. -/
theorem flatten_take (h : Blocks n bs xs) (b : Nat) : (bs.take b).flatten = xs.take (n * b) := by
  induction h generalizing b with
  | nil => simp
  | @last c hc hn =>
    cases b with
    | zero => simp
    | succ b =>
      have : n ≤ n * (b + 1) := Nat.le_mul_of_pos_right n (by omega)
      rw [List.take_of_length_le (by simp), List.take_of_length_le (by omega)]
      simp
  | @cons c bs xs hn _ ih =>
    cases b with
    | zero => simp
    | succ b =>
      have he : n * (b + 1) = c.length + n * b := by rw [hn, Nat.mul_succ]; omega
      rw [List.take_succ_cons, List.flatten_cons, ih, he, List.take_length_add_append]

/-- The block in which an element travels. -/
theorem split_at (h : Blocks n bs xs) (hn : 0 < n) {i : Nat} {x : α} (hx : xs[i]? = some x) :
    ∃ pre c post, bs = pre ++ c :: post ∧ pre.flatten = xs.take (n * (i / n)) ∧
      ∃ a b, c = a ++ x :: b ∧ n * (i / n) + a.length = i := by
  have hi : i < xs.length := (List.getElem?_eq_some_iff.mp hx).1
  have hdm := Nat.div_add_mod i n
  have hmod := Nat.mod_lt i hn
  have hlt : i / n < bs.length := by
    by_contra hge
    have ht := h.flatten_take (i / n)
    rw [List.take_of_length_le (by omega), h.flatten_eq] at ht
    have := congrArg List.length ht
    rw [List.length_take] at this
    omega
  have hsplit : bs = bs.take (i / n) ++ bs[i / n] :: bs.drop (i / n + 1) := by
    rw [← List.drop_eq_getElem_cons hlt, List.take_append_drop]
  refine ⟨_, _, _, hsplit, h.flatten_take _, ?_⟩
  -- the block itself: the elements from `n * (i / n)` on, up to the next block
  have hc : xs.take (n * (i / n)) ++ bs[i / n] = xs.take (n * (i / n + 1)) := by
    rw [← h.flatten_take, ← h.flatten_take, List.take_succ_eq_append_getElem hlt,
      List.flatten_append]
    simp only [List.flatten_cons, List.flatten_nil, List.append_nil]
  have hlen : (xs.take (n * (i / n))).length = n * (i / n) := by
    rw [List.length_take]; omega
  have hget : bs[i / n][i % n]? = some x := by
    have hr : (xs.take (n * (i / n + 1)))[i]? = some x := by
      rw [List.getElem?_take, if_pos (by rw [Nat.mul_succ]; omega), hx]
    rw [← hc, List.getElem?_append_right (by omega), hlen] at hr
    rwa [show i - n * (i / n) = i % n by omega] at hr
  obtain ⟨hm, hmx⟩ := List.getElem?_eq_some_iff.mp hget
  refine ⟨bs[i / n].take (i % n), bs[i / n].drop (i % n + 1), ?_, ?_⟩
  · rw [← hmx, ← List.drop_eq_getElem_cons hm, List.take_append_drop]
  · rw [List.length_take]; omega

/-- The elements of a block are those whose index has the block's quotient. -/
theorem mem_block (h : Blocks n bs xs) (hn : 0 < n) {c : List α} (hc : c ∈ bs) :
    ∃ q, ∀ y, y ∈ c ↔ ∃ j, xs[j]? = some y ∧ j / n = q := by
  induction h with
  | nil => simp at hc
  | @last b _ hb =>
    obtain rfl := List.mem_singleton.mp hc
    refine ⟨0, fun y => ?_⟩
    rw [List.mem_iff_getElem?]
    refine exists_congr fun j => (and_iff_left_of_imp fun hj => ?_).symm
    have := (List.getElem?_eq_some_iff.mp hj).1
    exact Nat.div_eq_of_lt (by omega)
  | @cons b bs xs hb _ ih =>
    rcases List.mem_cons.mp hc with rfl | hc
    · refine ⟨0, fun y => ?_⟩
      rw [List.mem_iff_getElem?]
      refine exists_congr fun j => ?_
      rw [Nat.div_eq_zero_iff_lt hn, ← hb]
      constructor
      · intro hj
        have hlt := (List.getElem?_eq_some_iff.mp hj).1
        rw [List.getElem?_append_left hlt]
        exact ⟨hj, hlt⟩
      · rintro ⟨hj, hlt⟩
        rwa [List.getElem?_append_left hlt] at hj
    · obtain ⟨q, hq⟩ := ih hc
      refine ⟨q + 1, fun y => ?_⟩
      rw [hq]
      constructor
      · rintro ⟨j, hj, hjq⟩
        refine ⟨n + j, ?_, by rw [Nat.add_div_left j hn, hjq]⟩
        rw [List.getElem?_append_right (by omega), hb, Nat.add_sub_cancel_left, hj]
      · rintro ⟨j, hj, hjq⟩
        have hge : n ≤ j := by
          by_contra hlt
          rw [Nat.div_eq_of_lt (by omega)] at hjq
          omega
        have hdiv := Nat.div_eq_sub_div hn hge
        refine ⟨j - n, ?_, by omega⟩
        rwa [List.getElem?_append_right (by omega), hb] at hj

theorem eq_nil (h : Blocks n bs xs) (hn : 0 < n) (hx : xs = []) : bs = [] := by
  cases h with
  | nil => rfl
  | last hb => exact absurd hx hb
  | @cons b bs xs hb _ =>
    rw [(List.append_eq_nil_iff.mp hx).1] at hb
    exact absurd hb (Nat.ne_of_lt hn)

/-- Related lists are cut into related blocks. -/
theorem forall₂ {β : Type} {R : α → β → Prop} (hn : 0 < n) (h : Blocks n bs xs)
    {cs : List (List β)} {ys : List β} (h' : Blocks n cs ys) (hr : List.Forall₂ R xs ys) :
    List.Forall₂ (List.Forall₂ R) bs cs := by
  induction h generalizing cs ys with
  | nil =>
    rw [h'.eq_nil hn (List.forall₂_nil_left_iff.mp hr)]
    exact .nil
  | @last b hb hbn =>
    have hlen := hr.length_eq
    cases h' with
    | nil => exact absurd (List.forall₂_nil_right_iff.mp hr) hb
    | last _ _ => exact .cons hr .nil
    | @cons c cs ys hc h' =>
      have hys : ys = [] := by
        rw [List.length_append] at hlen
        exact List.length_eq_zero_iff.mp (by omega)
      rw [h'.eq_nil hn hys]
      rw [hys, List.append_nil] at hr
      exact .cons hr .nil
  | @cons b bs xs hb h ih =>
    have hlen := hr.length_eq
    rw [List.length_append] at hlen
    cases h' with
    | nil => simp only [List.length_nil] at hlen; omega
    | last hc hcn =>
      have hxs : xs = [] := List.length_eq_zero_iff.mp (by omega)
      rw [h.eq_nil hn hxs]
      rw [hxs, List.append_nil] at hr
      exact .cons hr .nil
    | @cons c cs ys hc h' =>
      have ht := List.forall₂_take b.length hr
      have hd := List.forall₂_drop b.length hr
      rw [List.take_left, hb, ← hc, List.take_left] at ht
      rw [List.drop_left, hb, ← hc, List.drop_left] at hd
      exact .cons ht (ih h' hd)

end Blocks

/-- Full blocks and a rest. -/
theorem blocks_append {n : Nat} {bs : List (List α)} {p : List α} (hb : ∀ b ∈ bs, b.length = n)
    (hp : p.length ≤ n) :
    Blocks n (bs ++ if p = [] then [] else [p]) (bs.flatten ++ p) := by
  induction bs with
  | nil =>
    by_cases h : p = []
    · subst h; exact .nil
    · rw [if_neg h]; exact .last h hp
  | cons b bs ih =>
    rw [List.flatten_cons, List.append_assoc]
    exact .cons (hb b List.mem_cons_self) (ih fun c hc => hb c (List.mem_cons_of_mem _ hc))

/-- What one more element does to a buffer that is not full. -/
theorem Buffer.push_inv {n : Nat} (hn : 0 < n) {b : Buffer α} (hf : ∀ c ∈ b.handed, c.length = n)
    (hl : b.held.length < n) (x : α) :
    (∀ c ∈ (b.push n x).handed, c.length = n) ∧ (b.push n x).held.length < n ∧
      (b.push n x).handed.flatten ++ (b.push n x).held = b.handed.flatten ++ b.held ++ [x] := by
  unfold push
  by_cases h : n ≤ (b.held ++ [x]).length
  · have hne : b.held ++ [x] ≠ [] := by simp
    simp only [if_pos h, drain, if_neg hne]
    refine ⟨fun c hc => ?_, by simpa using hn, by simp⟩
    rcases List.mem_append.mp hc with hc | hc
    · exact hf c hc
    · obtain rfl := List.mem_singleton.mp hc
      rw [List.length_append, List.length_singleton] at h ⊢
      omega
  · simp only [if_neg h]
    exact ⟨hf, by omega, by simp⟩

/-- **The blocks handed on.** -/
theorem Buffer.drain_push {n : Nat} (hn : 0 < n) (xs : List α) :
    Blocks n (xs.foldl (push n) {}).drain.handed xs := by
  have inv : ∀ (xs : List α) (b : Buffer α), (∀ c ∈ b.handed, c.length = n) → b.held.length < n →
      (∀ c ∈ (xs.foldl (push n) b).handed, c.length = n) ∧ (xs.foldl (push n) b).held.length < n ∧
        (xs.foldl (push n) b).handed.flatten ++ (xs.foldl (push n) b).held =
          b.handed.flatten ++ b.held ++ xs := by
    intro xs
    induction xs with
    | nil => exact fun b hf hl => ⟨hf, hl, by simp⟩
    | cons x xs ih =>
      intro b hf hl
      obtain ⟨h1, h2, h3⟩ := push_inv hn hf hl x
      obtain ⟨k1, k2, k3⟩ := ih _ h1 h2
      exact ⟨k1, k2, by rw [List.foldl_cons, k3, h3]; simp⟩
  obtain ⟨h1, h2, h3⟩ := inv xs {} (by simp) (by simpa using hn)
  have hb := blocks_append h1 (Nat.le_of_lt h2)
  rw [h3] at hb
  unfold drain
  split
  · rename_i he; simpa [he] using hb
  · rename_i he; simpa [he] using hb

end BatchSystem.Core
