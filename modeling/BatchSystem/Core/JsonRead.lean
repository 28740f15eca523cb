import BatchSystem.Core.Json
import Mathlib.Algebra.Group.Nat.Defs

/-!
# Reading what was printed

* `parseStr_escape`: the reader of strings inverts the escaping.
* `parseValue_dump`, `loads_dump`: the round trip of values and of whole texts.
* `parseValue_append`, `parseValue_mono`: more text behind a finished value and
  more fuel change nothing.
* `loads_prefix`, `loads_prefix_arr`: a proper prefix of a printed object or
  array is not a JSON text.
-/
namespace BatchSystem.Core.Json

/-! ## Strings -/

theorem hexVal_hexDigit : ∀ d < 16, hexVal (hexDigit d) = some d := by decide

theorem parseStr_quote (r : List Char) : parseStr ('"' :: r) = some ([], r) := by
  rw [parseStr.eq_def]; simp

theorem parseStr_plain {c : Char} (h₁ : c ≠ '"') (h₂ : c ≠ '\\') (h₃ : ¬ c.toNat < 32)
    (r : List Char) : parseStr (c :: r) = (parseStr r).map fun p => (c :: p.1, p.2) := by
  rw [parseStr.eq_def]; simp [h₁, h₂, h₃]

theorem parseStr_escChar (c : Char) (rest : List Char) :
    parseStr (escChar c ++ rest) = (parseStr rest).map fun p => (c :: p.1, p.2) := by
  have hofNat : ∀ n, c.toNat = n → Char.ofNat n = c := by
    rintro _ rfl; exact Char.ofNat_toNat c
  unfold escChar
  split_ifs with h1 h2 h3 h4 h5 h6 h7 h8
  · subst h1; simp [parseStr, unescape]
  · subst h2; simp [parseStr, unescape]
  · subst h3; simp [parseStr, unescape]
  · subst h4; simp [parseStr, unescape]
  · subst h5; simp [parseStr, unescape]
  · simp [parseStr, unescape, ← hofNat 8 h6]
  · simp [parseStr, unescape, ← hofNat 12 h7]
  · have e1 := hexVal_hexDigit (c.toNat / 16) (by omega)
    have e2 := hexVal_hexDigit (c.toNat % 16) (by omega)
    have e0 : hexVal '0' = some 0 := by decide
    have hv : hex4 '0' '0' (hexDigit (c.toNat / 16)) (hexDigit (c.toNat % 16)) = some c.toNat := by
      simp only [hex4, e0, e1, e2, Option.some.injEq]; omega
    have hs : isSurrogate c.toNat = false := by
      simp only [isSurrogate, Bool.and_eq_false_imp, decide_eq_true_eq, decide_eq_false_iff_not]
      omega
    simp [parseStr, hv, hs, hofNat c.toNat rfl]
  · exact parseStr_plain h1 h2 h8 rest

theorem parseStr_escape (cs rest : List Char) :
    parseStr (escape cs ++ '"' :: rest) = some (cs, rest) := by
  induction cs with
  | nil => exact parseStr_quote rest
  | cons c cs ih =>
    have he : escape (c :: cs) = escChar c ++ escape cs := by simp [escape]
    rw [he, List.append_assoc, parseStr_escChar, ih]
    rfl

/-- What follows a string does not change how it is read. -/
theorem parseStr_append {s cs r : List Char} (h : parseStr s = some (cs, r)) (t : List Char) :
    parseStr (s ++ t) = some (cs, r ++ t) := by
  fun_induction parseStr s generalizing cs r with
  | case1 | case3 | case4 | case6 | case7 | case9 | case11 | case12 => cases h
  | case2 r => cases h; exact parseStr_quote _
  | case5 a b c d u h1 h2 e f g i r lo h3 h4 _ ih =>
    -- a surrogate pair
    simp only [Option.map_eq_some_iff, Prod.mk.injEq] at h
    obtain ⟨⟨cs', r'⟩, hp, rfl, rfl⟩ := h
    simp only [List.cons_append]
    rw [parseStr.eq_def]
    simp [h1, h2, h3, h4, ih hp]
  | case8 a b c d r u h1 h2 _ ih =>
    simp only [Option.map_eq_some_iff, Prod.mk.injEq] at h
    obtain ⟨⟨cs', r'⟩, hp, rfl, rfl⟩ := h
    simp only [List.cons_append]
    rw [parseStr.eq_def]
    simp [h1, h2, ih hp]
  | case10 e r hne x hx _ ih =>
    have hu : e ≠ 'u' := by
      have hn : unescape 'u' = none := by decide
      rintro rfl
      rw [hn] at hx; cases hx
    simp only [Option.map_eq_some_iff, Prod.mk.injEq] at h
    obtain ⟨⟨cs', r'⟩, hp, rfl, rfl⟩ := h
    simp only [List.cons_append]
    rw [parseStr.eq_def]
    simp [hu, hx, ih hp]
  | case13 c r h1 h2 h3 ih =>
    simp only [Option.map_eq_some_iff, Prod.mk.injEq] at h
    obtain ⟨⟨cs', r'⟩, hp, rfl, rfl⟩ := h
    rw [List.cons_append, parseStr_plain h1 h2 h3, ih hp]; rfl

/-! ## Numbers -/

theorem digitChar_isDigit : ∀ d < 10, (Nat.digitChar d).isDigit = true ∧
    (Nat.digitChar d).toNat = 48 + d := by decide

theorem toDigits_foldl (n m : Nat) :
    (Nat.toDigits 10 n).foldl (fun n c => n * 10 + (c.toNat - 48)) m =
      m * 10 ^ (Nat.toDigits 10 n).length + n := by
  induction n using Nat.strongRecOn with
  | ind n ih =>
    rw [Nat.toDigits_eq_if (by decide)]
    split
    · rename_i h
      have := (digitChar_isDigit n h).2
      simp only [List.foldl_cons, List.foldl_nil, List.length_singleton, this]
      omega
    · rename_i h
      have hd := (digitChar_isDigit (n % 10) (by omega)).2
      rw [List.foldl_append, ih (n / 10) (by omega)]
      simp only [List.foldl_cons, List.foldl_nil, List.length_append, List.length_singleton, hd,
        Nat.pow_succ]
      have : (m * 10 ^ (Nat.toDigits 10 (n / 10)).length + n / 10) * 10 =
          m * (10 ^ (Nat.toDigits 10 (n / 10)).length * 10) + n / 10 * 10 := by
        rw [Nat.add_mul, Nat.mul_assoc]
      omega

theorem toDigits_ne_nil (n : Nat) : Nat.toDigits 10 n ≠ [] := by
  rw [Nat.toDigits_eq_if (by decide)]; split <;> simp

/-- No leading zero. -/
theorem toDigits_head (n : Nat) : (Nat.toDigits 10 n).head? ≠ some '0' ∨
    (Nat.toDigits 10 n).length = 1 := by
  induction n using Nat.strongRecOn with
  | ind n ih =>
    have key : ∀ d < 10, 0 < d → Nat.digitChar d ≠ '0' := by decide
    by_cases h : n < 10
    · rw [Nat.toDigits_of_lt_base h]; exact .inr rfl
    · left
      rw [Nat.toDigits_of_base_le (by decide) (by omega),
        List.head?_append_of_ne_nil _ (toDigits_ne_nil _)]
      by_cases h2 : n / 10 < 10
      · rw [Nat.toDigits_of_lt_base h2]
        simpa using key _ h2 (by omega)
      · refine (ih (n / 10) (by omega)).resolve_right fun h1 => ?_
        rw [Nat.toDigits_of_base_le (by decide) (by omega), List.length_append,
          List.length_singleton] at h1
        have := List.length_pos_iff.mpr (toDigits_ne_nil (n / 10 / 10))
        omega

theorem toDigits_all (n : Nat) : ∀ c ∈ Nat.toDigits 10 n, c.isDigit = true :=
  fun _ hc => Nat.isDigit_of_mem_toDigits (by decide) (by decide) hc

theorem readNat_toDigits (n : Nat) : readNat (Nat.toDigits 10 n) = some n := by
  unfold readNat
  rw [if_pos ⟨toDigits_ne_nil n, List.all_eq_true.mpr (toDigits_all n), toDigits_head n⟩,
    toDigits_foldl]
  simp

theorem readNum_dumpNum (n : Int) : readNum (dumpNum n) = some (.num n) := by
  cases n with
  | ofNat n =>
    have hd := toDigits_all n
    have hr := readNat_toDigits n
    simp only [dumpNum]
    cases h : Nat.toDigits 10 n with
    | nil => exact absurd h (toDigits_ne_nil n)
    | cons c ds =>
      rw [h] at hd hr
      have hc : c ≠ '-' := by
        rintro rfl; exact absurd (hd _ List.mem_cons_self) (by decide)
      unfold readNum
      split
      · rename_i e; exact absurd (List.cons.inj e).1 hc
      · simp [hr]
  | negSucc n =>
    simp only [dumpNum, readNum, readNat_toDigits]
    rfl

theorem isNumChar_of_isDigit {c : Char} (h : c.isDigit = true) : isNumChar c = true := by
  simp [isNumChar, h]

theorem dumpNum_chars (n : Int) : dumpNum n ≠ [] ∧ ∀ c ∈ dumpNum n, isNumChar c = true := by
  cases n with
  | ofNat n => exact ⟨toDigits_ne_nil n, fun c hc => isNumChar_of_isDigit (toDigits_all n c hc)⟩
  | negSucc n =>
    refine ⟨by simp [dumpNum], fun c hc => ?_⟩
    rcases List.mem_cons.mp hc with rfl | hc
    · decide
    · exact isNumChar_of_isDigit (toDigits_all _ c hc)

/-! ## Values -/

/-- A value as the printer prints it: the text of a `dec` is one number
token that is not an integer. -/
def Token (text : List Char) : Prop :=
  text ≠ [] ∧ (∀ c ∈ text, isNumChar c = true) ∧ readNum text = some (.dec text)

mutual
def WF : Json → Prop
  | .dec text => Token text
  | .arr xs => WFElems xs
  | .obj ms => WFMembers ms
  | .null | .bool _ | .num _ | .str _ => True
def WFElems : List Json → Prop
  | [] => True
  | x :: xs => WF x ∧ WFElems xs
def WFMembers : List (String × Json) → Prop
  | [] => True
  | m :: ms => WF m.2 ∧ WFMembers ms
end

/-- What follows a value does not continue a number. -/
def Stop (rest : List Char) : Prop := ∀ c ∈ rest.head?, isNumChar c = false

/-- A character that a value may start with. -/
def startChar (c : Char) : Bool := !isWs c && c != ']' && c != '}' && c != ','

theorem startChar_of_isNumChar {c : Char} (h : isNumChar c = true) : startChar c = true := by
  have hne : ∀ d, isNumChar d = false → c ≠ d := by
    rintro d hd rfl; rw [h] at hd; cases hd
  simp [startChar, isWs, hne ' ' (by decide), hne '\t' (by decide), hne '\n' (by decide),
    hne '\r' (by decide), hne ']' (by decide), hne '}' (by decide), hne ',' (by decide)]

theorem dump_head {v : Json} (h : v.WF) : ∃ c r, dump v = c :: r ∧ startChar c = true := by
  cases v with
  | null => exact ⟨_, _, rfl, by decide⟩
  | bool b => cases b <;> exact ⟨_, _, rfl, by decide⟩
  | num n =>
    obtain ⟨hne, hc⟩ := dumpNum_chars n
    obtain ⟨c, r, he⟩ := List.exists_cons_of_ne_nil hne
    exact ⟨c, r, he, startChar_of_isNumChar (hc c (he ▸ List.mem_cons_self))⟩
  | dec text =>
    obtain ⟨c, r, he⟩ := List.exists_cons_of_ne_nil h.1
    exact ⟨c, r, he, startChar_of_isNumChar (h.2.1 c (he ▸ List.mem_cons_self))⟩
  | str s => exact ⟨_, _, rfl, by decide⟩
  | arr xs => exact ⟨_, _, rfl, by decide⟩
  | obj ms => exact ⟨_, _, rfl, by decide⟩

theorem skipWs_start {c : Char} (h : startChar c = true) (r : List Char) :
    skipWs (c :: r) = c :: r := by
  simp only [startChar, Bool.and_eq_true, Bool.not_eq_true'] at h
  simp [skipWs, h.1.1.1]

theorem expect_self {c : Char} (h : isWs c = false) (r : List Char) :
    expect c (c :: r) = some r := by
  simp [expect, skipWs, h]

theorem expect_ne {c d : Char} (h : isWs d = false) (hne : d ≠ c) (r : List Char) :
    expect c (d :: r) = none := by
  simp [expect, skipWs, h, hne]

theorem takeWhile_token {tok rest : List Char} (h : ∀ c ∈ tok, isNumChar c = true)
    (hs : Stop rest) : (tok ++ rest).takeWhile isNumChar = tok ∧
      (tok ++ rest).dropWhile isNumChar = rest := by
  have hrest : rest.takeWhile isNumChar = [] ∧ rest.dropWhile isNumChar = rest := by
    cases rest with
    | nil => exact ⟨rfl, rfl⟩
    | cons c r => simp [hs c rfl]
  rw [List.takeWhile_append_of_pos h, List.dropWhile_append_of_pos h, hrest.1, hrest.2]
  simp

theorem parseValue_number {tok rest : List Char} (hne : tok ≠ [])
    (h : ∀ c ∈ tok, isNumChar c = true) (hs : Stop rest) (n : Nat) :
    parseValue (n + 1) (tok ++ rest) = (readNum tok).map fun v => (v, rest) := by
  obtain ⟨c, r, rfl⟩ := List.exists_cons_of_ne_nil hne
  obtain ⟨ht, hd⟩ := takeWhile_token h hs
  have hc := h c List.mem_cons_self
  have hn : ∀ d, isNumChar d = false → c ≠ d := by
    rintro d hd rfl; rw [hc] at hd; cases hd
  rw [List.cons_append] at ht hd ⊢
  simp only [parseValue, hn '"' (by decide), hn '{' (by decide), hn '[' (by decide),
    hn 'n' (by decide), hn 't' (by decide), hn 'f' (by decide), if_false, ht, hd]

theorem literal_self (lit : String) (v : Json) (rest : List Char) :
    literal lit v (lit.toList ++ rest) = some (v, rest) := by
  have h : lit.toList.isPrefixOf (lit.toList ++ rest) = true := by
    rw [List.isPrefixOf_iff_prefix]; exact List.prefix_append _ _
  rw [literal, if_pos h, List.drop_left]

theorem stop_of_mem {c : Char} (h : isNumChar c = false) (rest : List Char) :
    Stop (c :: rest) := by
  intro d hd
  obtain rfl : c = d := by simpa using hd
  exact h

/-- One element, and what the separator behind it decides. -/
theorem dumpElems_cons (x : Json) (xs : List Json) :
    dumpElems (x :: xs) = dump x ++ (if xs = [] then [']'] else ',' :: dumpElems xs) := by
  cases xs <;> simp [dumpElems]

theorem dumpMembers_cons (m : String × Json) (ms : List (String × Json)) :
    dumpMembers (m :: ms) = dumpStr m.1 ++ ':' :: (dump m.2 ++
      (if ms = [] then ['}'] else ',' :: dumpMembers ms)) := by
  cases ms <;> simp [dumpMembers]

/-- The round trip at fuel `n`. -/
structure ReadsBack (n : Nat) : Prop where
  value : ∀ {v t}, WF v → Stop t → (dump v).length < n →
    parseValue n (dump v ++ t) = some (v, t)
  elems : ∀ {x xs t}, WFElems (x :: xs) → (dumpElems (x :: xs)).length < n →
    parseElems n (dumpElems (x :: xs) ++ t) = some (x :: xs, t)
  members : ∀ {m ms t}, WFMembers (m :: ms) → (dumpMembers (m :: ms)).length < n →
    parseMembers n (dumpMembers (m :: ms) ++ t) = some (m :: ms, t)

theorem readsBack_value {n : Nat} (ih : ReadsBack n) {v : Json} {rest : List Char} (hv : WF v)
    (hs : Stop rest) (hn : (dump v).length < n + 1) :
    parseValue (n + 1) (dump v ++ rest) = some (v, rest) := by
  cases v with
  | null => exact literal_self "null" .null rest
  | bool b =>
    cases b with
    | true => exact literal_self "true" (.bool true) rest
    | false => exact literal_self "false" (.bool false) rest
  | num k =>
    obtain ⟨hne, hc⟩ := dumpNum_chars k
    rw [dump, parseValue_number hne hc hs, readNum_dumpNum]; rfl
  | dec text =>
    obtain ⟨hne, hc, ht⟩ := hv
    rw [dump, parseValue_number hne hc hs, ht]; rfl
  | str s =>
    have h : dump (.str s) ++ rest = '"' :: (escape s.toList ++ '"' :: rest) := by
      simp [dump, dumpStr]
    rw [h]
    simp [parseValue, parseStr_escape]
  | arr xs =>
    cases xs with
    | nil => simp [dump, dumpElems, parseValue, expect_self (c := ']') (by decide)]
    | cons x xs =>
      have hx : WF x := hv.1
      obtain ⟨c, r, he, hc⟩ := dump_head hx
      have hne : expect ']' (dumpElems (x :: xs) ++ rest) = none := by
        rw [dumpElems_cons, he]
        refine expect_ne ?_ ?_ _
        · simp only [startChar, Bool.and_eq_true, Bool.not_eq_true'] at hc; exact hc.1.1.1
        · rintro rfl; exact absurd hc (by decide)
      have hl : (dumpElems (x :: xs)).length < n := by simpa [dump] using hn
      have h := ih.elems (t := rest) hv hl
      simp [dump, parseValue, hne, h]
  | obj ms =>
    cases ms with
    | nil => simp [dump, dumpMembers, parseValue, expect_self (c := '}') (by decide)]
    | cons m ms =>
      have hne : expect '}' (dumpMembers (m :: ms) ++ rest) = none := by
        rw [dumpMembers_cons]
        exact expect_ne (d := '"') (by decide) (by decide) _
      have hl : (dumpMembers (m :: ms)).length < n := by simpa [dump] using hn
      have h := ih.members (t := rest) hv hl
      simp [dump, parseValue, hne, h]

theorem skipWs_dump {v : Json} (h : WF v) (rest : List Char) :
    skipWs (dump v ++ rest) = dump v ++ rest := by
  obtain ⟨c, r, he, hc⟩ := dump_head h
  rw [he, List.cons_append, skipWs_start hc]

theorem readsBack_elems {n : Nat} (ih : ReadsBack n) {x : Json} {xs : List Json}
    {rest : List Char} (hv : WFElems (x :: xs)) (hn : (dumpElems (x :: xs)).length < n + 1) :
    parseElems (n + 1) (dumpElems (x :: xs) ++ rest) = some (x :: xs, rest) := by
  rw [dumpElems_cons] at hn ⊢
  cases xs with
  | nil =>
    have hx : (dump x).length < n := by simpa using hn
    have h := ih.value (t := ']' :: rest) hv.1 (stop_of_mem (by decide) _) hx
    simp [parseElems, skipWs_dump hv.1, h, expect_ne (c := ',') (d := ']') (by decide) (by decide),
      expect_self (c := ']') (by decide)]
  | cons y ys =>
    simp only [List.cons_ne_nil, if_false, List.length_append, List.length_cons] at hn ⊢
    have h := ih.value (t := ',' :: (dumpElems (y :: ys) ++ rest)) hv.1
      (stop_of_mem (by decide) _) (by omega)
    have h2 := ih.elems (t := rest) hv.2 (by omega)
    simp [parseElems, skipWs_dump hv.1, h, expect_self (c := ',') (by decide), h2]

theorem readsBack_members {n : Nat} (ih : ReadsBack n) {m : String × Json}
    {ms : List (String × Json)} {rest : List Char} (hv : WFMembers (m :: ms))
    (hn : (dumpMembers (m :: ms)).length < n + 1) :
    parseMembers (n + 1) (dumpMembers (m :: ms) ++ rest) = some (m :: ms, rest) := by
  obtain ⟨k, v⟩ := m
  rw [dumpMembers_cons] at hn ⊢
  have hk : ∀ r, dumpStr k ++ r = '"' :: (escape k.toList ++ '"' :: r) := by simp [dumpStr]
  have hq : ∀ r, expect '"' ('"' :: r) = some r := expect_self (by decide)
  have hc : ∀ r, expect ':' (':' :: r) = some r := expect_self (by decide)
  cases ms with
  | nil =>
    simp only [if_true, List.length_append, List.length_cons] at hn ⊢
    have hl : (dump v).length < n := by omega
    have h := ih.value (t := '}' :: rest) hv.1 (stop_of_mem (by decide) _) hl
    simp [hk, parseMembers, hq, parseStr_escape, hc, skipWs_dump hv.1, h,
      expect_ne (c := ',') (d := '}') (by decide) (by decide), expect_self (c := '}') (by decide)]
  | cons p ps =>
    simp only [List.cons_ne_nil, if_false, List.length_append, List.length_cons] at hn ⊢
    have hl : (dump v).length < n := by omega
    have h := ih.value (t := ',' :: (dumpMembers (p :: ps) ++ rest)) hv.1
      (stop_of_mem (by decide) _) hl
    have h2 := ih.members (t := rest) hv.2 (by omega)
    simp [hk, parseMembers, hq, parseStr_escape, hc, skipWs_dump hv.1, h,
      expect_self (c := ',') (by decide), h2]

theorem readsBack (n : Nat) : ReadsBack n := by
  induction n with
  | zero => exact ⟨fun _ _ h => by omega, fun _ h => by omega, fun _ h => by omega⟩
  | succ n ih => exact ⟨readsBack_value ih, readsBack_elems ih, readsBack_members ih⟩

/-- Reading what was printed gives the value back, whatever follows it. -/
theorem parseValue_dump {v : Json} {t : List Char} {n : Nat} (hv : WF v) (hs : Stop t)
    (hn : (dump v).length < n) : parseValue n (dump v ++ t) = some (v, t) :=
  (readsBack n).value hv hs hn

theorem loads_dump {v : Json} (hv : WF v) : loads (dump v) = some v := by
  have h := parseValue_dump (t := []) hv (by simp [Stop]) (Nat.lt_succ_self (dump v).length)
  have hs := skipWs_dump hv []
  rw [List.append_nil] at h hs
  rw [loads, hs, h]
  rfl

/-! ## More text -/

theorem dropWhile_append_ne {s : List Char} {p : Char → Bool} (h : s.dropWhile p ≠ [])
    (t : List Char) : (s ++ t).dropWhile p = s.dropWhile p ++ t := by
  rw [List.dropWhile_append, if_neg (by simpa using h)]

theorem takeWhile_append_ne {s : List Char} {p : Char → Bool} (h : s.dropWhile p ≠ [])
    (t : List Char) : (s ++ t).takeWhile p = s.takeWhile p := by
  have hl : (s.takeWhile p).length ≠ s.length := by
    have := congrArg List.length (List.takeWhile_append_dropWhile (p := p) (l := s))
    rw [List.length_append] at this
    have := List.length_pos_iff.mpr h
    omega
  rw [List.takeWhile_append, if_neg hl]

theorem expect_append {c : Char} {s r : List Char} (h : expect c s = some r) (t : List Char) :
    expect c (s ++ t) = some (r ++ t) := by
  unfold expect at h ⊢
  cases hs : skipWs s with
  | nil => rw [hs] at h; cases h
  | cons d q =>
    have ha : skipWs (s ++ t) = skipWs s ++ t := dropWhile_append_ne (by simpa [skipWs] using
      (by rw [hs]; simp : skipWs s ≠ [])) t
    rw [hs] at h
    rw [ha, hs]
    simp only at h
    split at h
    · rename_i hd; cases h; simp [hd]
    · cases h

theorem expect_none_append {c : Char} {s : List Char} (h : expect c s = none)
    (hs : skipWs s ≠ []) (t : List Char) : expect c (s ++ t) = none := by
  have ha : skipWs (s ++ t) = skipWs s ++ t := dropWhile_append_ne hs t
  obtain ⟨d, q, hd⟩ := List.exists_cons_of_ne_nil hs
  unfold expect at h ⊢
  rw [hd] at h
  rw [ha, hd]
  have hne : d ≠ c := by simpa using h
  simp [hne]

theorem skipWs_of_expect {c : Char} {s r : List Char} (h : expect c s = some r) :
    skipWs s ≠ [] := by
  intro hs; simp [expect, hs] at h

theorem literal_append {lit : String} {v v' : Json} {s r : List Char}
    (h : literal lit v s = some (v', r)) (t : List Char) :
    literal lit v (s ++ t) = some (v', r ++ t) := by
  unfold literal at h ⊢
  split at h
  · rename_i hp
    obtain ⟨q, rfl⟩ := List.isPrefixOf_iff_prefix.mp hp
    rw [List.append_assoc, if_pos (List.isPrefixOf_iff_prefix.mpr (List.prefix_append _ _)),
      List.drop_left]
    rw [List.drop_left] at h
    cases h; rfl
  · cases h

theorem parseValue_nil (n : Nat) : parseValue n [] = none := by
  cases n <;> simp [parseValue]

/-- A value that may not go on: something follows it, or it is no number. -/
def Ended (s r : List Char) : Prop := r ≠ [] ∨ ∀ c ∈ s.head?, isNumChar c = false

structure ReadsSame (n : Nat) : Prop where
  value : ∀ {s v r}, parseValue n s = some (v, r) → Ended s r → ∀ t,
    parseValue n (s ++ t) = some (v, r ++ t)
  elems : ∀ {s xs r}, parseElems n s = some (xs, r) → ∀ t,
    parseElems n (s ++ t) = some (xs, r ++ t)
  members : ∀ {s ms r}, parseMembers n s = some (ms, r) → ∀ t,
    parseMembers n (s ++ t) = some (ms, r ++ t)

theorem skipWs_of_parseElems {n : Nat} {s : List Char} {p : List Json × List Char}
    (h : parseElems n s = some p) : skipWs s ≠ [] := by
  intro hs
  cases n with
  | zero => simp [parseElems] at h
  | succ n => simp [parseElems, hs, parseValue_nil] at h

theorem skipWs_of_parseMembers {n : Nat} {s : List Char}
    {p : List (String × Json) × List Char} (h : parseMembers n s = some p) : skipWs s ≠ [] := by
  cases n with
  | zero => simp [parseMembers] at h
  | succ n =>
    simp only [parseMembers, Option.bind_eq_some_iff] at h
    obtain ⟨r, hr, -⟩ := h
    exact skipWs_of_expect hr

theorem readsSame_value {n : Nat} (ih : ReadsSame n) {s : List Char} {v : Json} {r : List Char}
    (h : parseValue (n + 1) s = some (v, r)) (he : Ended s r) (t : List Char) :
    parseValue (n + 1) (s ++ t) = some (v, r ++ t) := by
  cases s with
  | nil => simp [parseValue] at h
  | cons c q =>
    rw [List.cons_append]
    simp only [parseValue] at h ⊢
    split_ifs at h ⊢ with h1 h2 h3 h4 h5 h6
    · simp only [Option.map_eq_some_iff, Prod.mk.injEq] at h ⊢
      obtain ⟨⟨cs, r'⟩, hp, rfl, rfl⟩ := h
      exact ⟨_, parseStr_append hp t, rfl, rfl⟩
    · cases hx : expect '}' q with
      | some r' =>
        rw [hx] at h; cases h
        rw [expect_append hx]
      | none =>
        rw [hx] at h
        simp only [Option.map_eq_some_iff, Prod.mk.injEq] at h
        obtain ⟨⟨ms, r'⟩, hp, rfl, rfl⟩ := h
        simp [expect_none_append hx (skipWs_of_parseMembers hp), ih.members hp t]
    · cases hx : expect ']' q with
      | some r' =>
        rw [hx] at h; cases h
        rw [expect_append hx]
      | none =>
        rw [hx] at h
        simp only [Option.map_eq_some_iff, Prod.mk.injEq] at h
        obtain ⟨⟨xs, r'⟩, hp, rfl, rfl⟩ := h
        simp [expect_none_append hx (skipWs_of_parseElems hp), ih.elems hp t]
    · exact literal_append h t
    · exact literal_append h t
    · exact literal_append h t
    · -- a number is over only when something else follows it
      simp only [Option.map_eq_some_iff, Prod.mk.injEq] at h ⊢
      obtain ⟨v', hv, rfl, rfl⟩ := h
      have hr : (c :: q).dropWhile isNumChar ≠ [] := by
        rcases he with hr | hc
        · exact hr
        · simp [hc c rfl]
      rw [← List.cons_append, takeWhile_append_ne hr, dropWhile_append_ne hr]
      exact ⟨v', hv, rfl, rfl⟩

theorem ended_of_expect {c : Char} {s r q : List Char} (h : expect c r = some q) : Ended s r := by
  refine .inl fun hr => ?_
  rw [hr] at h
  exact skipWs_of_expect h rfl

theorem readsSame_elems {n : Nat} (ih : ReadsSame n) {s : List Char} {xs : List Json}
    {r : List Char} (h : parseElems (n + 1) s = some (xs, r)) (t : List Char) :
    parseElems (n + 1) (s ++ t) = some (xs, r ++ t) := by
  have hsk : skipWs (s ++ t) = skipWs s ++ t := dropWhile_append_ne (skipWs_of_parseElems h) t
  simp only [parseElems, Option.bind_eq_some_iff] at h
  obtain ⟨⟨x, rx⟩, hx, h⟩ := h
  simp only at h
  rw [parseElems, hsk]
  cases hc : expect ',' rx with
  | some q =>
    rw [hc] at h
    simp only [Option.map_eq_some_iff, Prod.mk.injEq] at h
    obtain ⟨⟨ys, r'⟩, hp, rfl, rfl⟩ := h
    simp [ih.value hx (ended_of_expect hc) t, expect_append hc, ih.elems hp t]
  | none =>
    rw [hc] at h
    simp only [Option.map_eq_some_iff, Prod.mk.injEq] at h
    obtain ⟨q, hq, rfl, rfl⟩ := h
    simp [ih.value hx (ended_of_expect hq) t, expect_none_append hc (skipWs_of_expect hq),
      expect_append hq]

theorem readsSame_members {n : Nat} (ih : ReadsSame n) {s : List Char}
    {ms : List (String × Json)} {r : List Char} (h : parseMembers (n + 1) s = some (ms, r))
    (t : List Char) : parseMembers (n + 1) (s ++ t) = some (ms, r ++ t) := by
  simp only [parseMembers, Option.bind_eq_some_iff] at h ⊢
  obtain ⟨r₁, h₁, ⟨k, rk⟩, hk, r₂, h₂, ⟨x, rx⟩, hx, h⟩ := h
  simp only at h₂ hx h
  have hv : skipWs r₂ ≠ [] := by
    intro hs; simp [hs, parseValue_nil] at hx
  refine ⟨_, expect_append h₁ t, _, parseStr_append hk t, _, expect_append h₂ t, (x, rx ++ t), ?_⟩
  have hsk : skipWs (r₂ ++ t) = skipWs r₂ ++ t := dropWhile_append_ne hv t
  rw [hsk]
  cases hc : expect ',' rx with
  | some q =>
    rw [hc] at h
    simp only [Option.map_eq_some_iff, Prod.mk.injEq] at h
    obtain ⟨⟨ys, r'⟩, hp, rfl, rfl⟩ := h
    exact ⟨ih.value hx (ended_of_expect hc) t, by simp [expect_append hc, ih.members hp t]⟩
  | none =>
    rw [hc] at h
    simp only [Option.map_eq_some_iff, Prod.mk.injEq] at h
    obtain ⟨q, hq, rfl, rfl⟩ := h
    exact ⟨ih.value hx (ended_of_expect hq) t,
      by simp [expect_none_append hc (skipWs_of_expect hq), expect_append hq]⟩

theorem readsSame (n : Nat) : ReadsSame n := by
  induction n with
  | zero =>
    exact ⟨fun h => by simp [parseValue] at h, fun h => by simp [parseElems] at h,
      fun h => by simp [parseMembers] at h⟩
  | succ n ih => exact ⟨readsSame_value ih, readsSame_elems ih, readsSame_members ih⟩

/-- A value that was read to its end is read the same when more text follows. -/
theorem parseValue_append {n : Nat} {s r : List Char} {v : Json}
    (h : parseValue n s = some (v, r)) (he : Ended s r) (t : List Char) :
    parseValue n (s ++ t) = some (v, r ++ t) :=
  (readsSame n).value h he t

/-! ## More fuel -/

structure ReadsMore (n : Nat) : Prop where
  value : ∀ {s p}, parseValue n s = some p → parseValue (n + 1) s = some p
  elems : ∀ {s p}, parseElems n s = some p → parseElems (n + 1) s = some p
  members : ∀ {s p}, parseMembers n s = some p → parseMembers (n + 1) s = some p

theorem readsMore_value {n : Nat} (ih : ReadsMore n) {s : List Char} {p : Json × List Char}
    (h : parseValue (n + 1) s = some p) : parseValue (n + 2) s = some p := by
  cases s with
  | nil => simp [parseValue] at h
  | cons c q =>
    simp only [parseValue] at h ⊢
    split_ifs at h ⊢ with h1 h2 h3
    · exact h
    · cases hx : expect '}' q with
      | some r => simpa [hx] using h
      | none =>
        simp only [hx, Option.map_eq_some_iff] at h ⊢
        obtain ⟨a, ha, rfl⟩ := h
        exact ⟨a, ih.members ha, rfl⟩
    · cases hx : expect ']' q with
      | some r => simpa [hx] using h
      | none =>
        simp only [hx, Option.map_eq_some_iff] at h ⊢
        obtain ⟨a, ha, rfl⟩ := h
        exact ⟨a, ih.elems ha, rfl⟩
    all_goals exact h

theorem readsMore_elems {n : Nat} (ih : ReadsMore n) {s : List Char} {p : List Json × List Char}
    (h : parseElems (n + 1) s = some p) : parseElems (n + 2) s = some p := by
  simp only [parseElems, Option.bind_eq_some_iff] at h
  obtain ⟨x, hx, h⟩ := h
  rw [parseElems, ih.value hx]
  cases hc : expect ',' x.2 with
  | none => simpa [hc] using h
  | some r =>
    simp only [hc, Option.map_eq_some_iff] at h
    obtain ⟨a, ha, rfl⟩ := h
    simp [hc, ih.elems ha]

theorem readsMore_members {n : Nat} (ih : ReadsMore n) {s : List Char}
    {p : List (String × Json) × List Char} (h : parseMembers (n + 1) s = some p) :
    parseMembers (n + 2) s = some p := by
  simp only [parseMembers, Option.bind_eq_some_iff] at h ⊢
  obtain ⟨r₁, h₁, k, hk, r₂, h₂, x, hx, h⟩ := h
  refine ⟨r₁, h₁, k, hk, r₂, h₂, x, ih.value hx, ?_⟩
  cases hc : expect ',' x.2 with
  | none => simpa [hc] using h
  | some r =>
    simp only [hc, Option.map_eq_some_iff] at h
    obtain ⟨a, ha, rfl⟩ := h
    simp only [Option.map_eq_some_iff]
    exact ⟨a, ih.members ha, rfl⟩

theorem readsMore (n : Nat) : ReadsMore n := by
  induction n with
  | zero =>
    exact ⟨fun h => by simp [parseValue] at h, fun h => by simp [parseElems] at h,
      fun h => by simp [parseMembers] at h⟩
  | succ n ih => exact ⟨readsMore_value ih, readsMore_elems ih, readsMore_members ih⟩

theorem parseValue_mono {n m : Nat} (hnm : n ≤ m) {s : List Char} {p : Json × List Char}
    (h : parseValue n s = some p) : parseValue m s = some p := by
  induction hnm with
  | refl => exact h
  | step _ ih => exact (readsMore _).value ih

/-- A text cut off inside a printed value that is no number is not a JSON text. -/
theorem loads_cut {v : Json} (hv : WF v) (hh : ∀ c ∈ (dump v).head?, isNumChar c = false)
    {p t : List Char} (h : p ++ t = dump v) (ht : t ≠ []) : loads p = none := by
  by_contra hne
  obtain ⟨x, hl⟩ := Option.ne_none_iff_exists'.mp hne
  simp only [loads, Option.bind_eq_some_iff] at hl
  obtain ⟨⟨x, r⟩, hp, -⟩ := hl
  cases p with
  | nil => simp [skipWs, parseValue] at hp
  | cons c q =>
    obtain ⟨d, e, hd, hs⟩ := dump_head hv
    rw [hd] at h hh
    obtain rfl : c = d := (List.cons.inj h).1
    rw [skipWs_start hs] at hp
    have hend : Ended (c :: q) r := .inr (by rintro _ ⟨rfl⟩; exact hh c rfl)
    have hm := parseValue_append hp hend t
    rw [h, ← hd] at hm
    have hdump := parseValue_dump (t := []) hv (by simp [Stop]) (Nat.lt_succ_self _)
    rw [List.append_nil] at hdump
    have hle : (c :: q).length + 1 ≤ (dump v).length.succ := by
      rw [hd, ← h, List.length_append]
      omega
    have heq := (parseValue_mono hle hm).symm.trans hdump
    simp only [Option.some.injEq, Prod.mk.injEq, List.append_eq_nil_iff] at heq
    exact ht heq.2.2

/-- A text cut off inside a printed object is not a JSON text. -/
theorem loads_prefix {ms : List (String × Json)} (hv : WF (.obj ms)) {p t : List Char}
    (h : p ++ t = dump (.obj ms)) (ht : t ≠ []) : loads p = none := by
  refine loads_cut hv (fun c hc => ?_) h ht
  rw [dump] at hc
  cases hc
  decide

/-- Nor is one cut off inside a printed array. -/
theorem loads_prefix_arr {xs : List Json} (hv : WF (.arr xs)) {p t : List Char}
    (h : p ++ t = dump (.arr xs)) (ht : t ≠ []) : loads p = none := by
  refine loads_cut hv (fun c hc => ?_) h ht
  rw [dump] at hc
  cases hc
  decide

end BatchSystem.Core.Json
