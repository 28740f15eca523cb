import Mathlib.Data.List.DropRight

/-!
# Lines and blanks

`splitLines` is Python's `str.splitlines()`: it breaks at every boundary of its
documented set and not only at a newline.

* `splitLines_break`: the first line of a text is what stands before its first
  boundary.
* `splitLines_terminated`: lines without a boundary, each ended by a newline, split
  back into the same lines, and a rest behind them is split on its own.
* `exists_break`: a text that holds a boundary is cut at its first one.
-/
namespace BatchSystem.Core

/-- The line boundaries of `str.splitlines`. -/
def isLineBreak (c : Char) : Bool :=
  (10 ≤ c.toNat && c.toNat ≤ 13) || (28 ≤ c.toNat && c.toNat ≤ 30) || c.toNat = 0x85 ||
    c.toNat = 0x2028 || c.toNat = 0x2029

/-- `cur` is the part of the line that was read. A carriage return and the
newline behind it are one boundary. -/
def splitLinesFrom (cur : List Char) : List Char → List (List Char)
  | [] => if cur = [] then [] else [cur]
  | '\r' :: '\n' :: s => cur :: splitLinesFrom [] s
  | c :: s => if isLineBreak c then cur :: splitLinesFrom [] s else splitLinesFrom (cur ++ [c]) s

def splitLines (s : List Char) : List (List Char) := splitLinesFrom [] s

/-- The whitespace of `str.strip()`. -/
def isSpace (c : Char) : Bool :=
  (9 ≤ c.toNat && c.toNat ≤ 13) || (28 ≤ c.toNat && c.toNat ≤ 32) || c.toNat = 0x85 ||
    c.toNat = 0xA0 || c.toNat = 0x1680 || (0x2000 ≤ c.toNat && c.toNat ≤ 0x200A) ||
    c.toNat = 0x2028 || c.toNat = 0x2029 || c.toNat = 0x202F || c.toNat = 0x205F ||
    c.toNat = 0x3000

def strip (s : List Char) : List Char := (s.dropWhile isSpace).rdropWhile isSpace

/-- `strip` leaves nothing of a text of blanks only. -/
theorem strip_eq_nil {s : List Char} : strip s = [] ↔ ∀ c ∈ s, isSpace c = true := by
  rw [strip, List.rdropWhile_eq_nil_iff]
  constructor
  · intro h c hc
    rw [← List.takeWhile_append_dropWhile (p := isSpace) (l := s), List.mem_append] at hc
    rcases hc with hc | hc
    · exact List.mem_takeWhile_imp hc
    · exact h c hc
  · exact fun h c hc => h c ((List.dropWhile_suffix _).subset hc)

/-! ## Lines -/

theorem splitLinesFrom_cons {c : Char} (h : c ≠ '\r') (cur s : List Char) :
    splitLinesFrom cur (c :: s) =
      if isLineBreak c then cur :: splitLinesFrom [] s else splitLinesFrom (cur ++ [c]) s := by
  rw [splitLinesFrom.eq_def]
  split
  · contradiction
  · rename_i he
    exact absurd (List.cons.inj he).1 h
  · rename_i he
    obtain ⟨rfl, rfl⟩ := List.cons.inj he
    rfl

theorem splitLinesFrom_append {l : List Char} (h : ∀ c ∈ l, isLineBreak c = false)
    (cur s : List Char) : splitLinesFrom cur (l ++ s) = splitLinesFrom (cur ++ l) s := by
  induction l generalizing cur with
  | nil => simp
  | cons c l ih =>
    have hc := h c List.mem_cons_self
    have hr : c ≠ '\r' := by
      rintro rfl; exact absurd hc (by decide)
    rw [List.cons_append, splitLinesFrom_cons hr, hc,
      if_neg Bool.false_ne_true, ih fun d hd => h d (List.mem_cons_of_mem _ hd)]
    simp

theorem splitLines_break {l : List Char} (h : ∀ c ∈ l, isLineBreak c = false) {b : Char}
    (hb : isLineBreak b = true) (hr : b ≠ '\r') (s : List Char) :
    splitLines (l ++ b :: s) = l :: splitLines s := by
  rw [splitLines, splitLinesFrom_append h, splitLinesFrom_cons hr, if_pos hb]
  rfl

/-- Whatever the boundary is, the first line ends there. -/
theorem splitLines_first {l : List Char} (h : ∀ c ∈ l, isLineBreak c = false) {b : Char}
    (hb : isLineBreak b = true) (s : List Char) : ∃ ls, splitLines (l ++ b :: s) = l :: ls := by
  by_cases hr : b = '\r'
  · subst hr
    rw [splitLines, splitLinesFrom_append h, List.nil_append, splitLinesFrom.eq_def]
    split
    · contradiction
    · exact ⟨_, rfl⟩
    · rename_i he
      obtain ⟨rfl, rfl⟩ := List.cons.inj he
      exact ⟨_, if_pos hb⟩
  · exact ⟨_, splitLines_break h hb hr s⟩

/-- A text without a boundary is one line, or none when it is empty. -/
theorem splitLines_no_break {l : List Char} (h : ∀ c ∈ l, isLineBreak c = false) :
    splitLines l = if l = [] then [] else [l] := by
  have := splitLinesFrom_append h [] []
  simpa [splitLines, splitLinesFrom] using this

theorem splitLines_terminated {ls : List (List Char)} (h : ∀ l ∈ ls, ∀ c ∈ l, isLineBreak c = false)
    (s : List Char) : splitLines (ls.flatMap (· ++ ['\n']) ++ s) = ls ++ splitLines s := by
  induction ls with
  | nil => rfl
  | cons l ls ih =>
    have hl := splitLines_break (h l List.mem_cons_self) (b := '\n') (by decide) (by decide)
      (ls.flatMap (· ++ ['\n']) ++ s)
    rw [ih fun m hm => h m (List.mem_cons_of_mem _ hm)] at hl
    simpa using hl

theorem exists_break {s : List Char} (h : ∃ c ∈ s, isLineBreak c = true) :
    ∃ l b r, s = l ++ b :: r ∧ isLineBreak b = true ∧ ∀ c ∈ l, isLineBreak c = false := by
  induction s with
  | nil => obtain ⟨c, hc, -⟩ := h; cases hc
  | cons d s ih =>
    cases hd : isLineBreak d with
    | true => exact ⟨[], d, s, rfl, hd, by simp⟩
    | false =>
      have hs : ∃ c ∈ s, isLineBreak c = true := by
        obtain ⟨c, hc, hb⟩ := h
        rcases List.mem_cons.mp hc with rfl | hc
        · rw [hd] at hb; cases hb
        · exact ⟨c, hc, hb⟩
      obtain ⟨l, b, r, rfl, hb, hl⟩ := ih hs
      refine ⟨d :: l, b, r, rfl, hb, fun c hc => ?_⟩
      rcases List.mem_cons.mp hc with rfl | hc
      · exact hd
      · exact hl c hc

example : splitLines "a\r\nb\u2028c\n\nd".toList =
    ["a".toList, "b".toList, "c".toList, [], "d".toList] := by decide

end BatchSystem.Core
