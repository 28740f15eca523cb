import BatchSystem.Service.System

/-!
# `submit` and its look at the input file

`_validate_submit` reads 64 bytes, strips Python's byte whitespace and wants a
bracket. The ingestor's parser reads on for any number of bytes and skips JSON
whitespace only.

* `accepts_iff`: the check accepts what opens within 64 bytes behind Python's
  whitespace.
* `check_agrees_iff`: it agrees with the parser's notion exactly when the
  bracket is near enough and no vertical tab or form feed stands before it.
* `submit_rejected`: a refused submission creates no row and names what failed.
-/
namespace BatchSystem.Service

open Domain

abbrev Bytes := List UInt8

/-- What is at the input path. -/
inductive InputFile where
  | missing
  | unreadable (exc : String)
  | content (bytes : Bytes)
  deriving DecidableEq, Repr

/-- `bytes.lstrip()` drops ASCII whitespace: tab, line feed, vertical tab, form
feed, carriage return and space. -/
def isByteSpace (b : UInt8) : Bool := b ∈ [9, 10, 11, 12, 13, 32]

/-- JSON whitespace: tab, line feed, carriage return and space. -/
def isJsonSpace (b : UInt8) : Bool := b ∈ [9, 10, 13, 32]

/-- `b"["`. -/
def openBracket : UInt8 := 91

def headSize : Nat := 64

/-- mirrors app/services/job_service.py:53-58 -/
def fileErrors : InputFile → List String
  | .missing => []
  | .unreadable exc => ["cannot read input file: " ++ exc]
  | .content bytes =>
    if ((bytes.take headSize).dropWhile isByteSpace).head? = some openBracket then []
    else ["input file must be a JSON array"]

/-- mirrors app/services/job_service.py:47-63 -/
def validateSubmit (inputPath : String) (file : InputFile) (model : Option String)
    (settings : Settings) : List String :=
  (if file = .missing then ["input file not found: " ++ inputPath] else fileErrors file) ++
    if modelOr model settings = "" then ["no model configured"] else []

/-- The errors of a refused submission, or the row of the new job.
mirrors app/services/job_service.py:65-79 -/
def submit (job : JobId) (inputPath : String) (file : InputFile) (model : Option String)
    (settings : Settings) : Except (List String) JobRow :=
  if validateSubmit inputPath file model settings = [] then
    .ok (newJob job inputPath model settings)
  else .error (validateSubmit inputPath file model settings)

/-- Byte `i` is the bracket, and all bytes before it are of the kind `space`. -/
def OpensAt (space : UInt8 → Bool) (bytes : Bytes) (i : Nat) : Prop :=
  bytes[i]? = some openBracket ∧ ∀ b ∈ bytes.take i, space b = true

/-! ## Where a file opens -/

theorem jsonSpace_byteSpace {b : UInt8} (h : isJsonSpace b = true) : isByteSpace b = true := by
  simp only [isJsonSpace, isByteSpace, List.mem_cons, List.not_mem_nil, or_false,
    decide_eq_true_eq] at h ⊢
  tauto

/-- Python's byte whitespace is JSON's with the vertical tab and the form feed. -/
theorem byteSpace_jsonSpace {b : UInt8} (h : isByteSpace b = true) (hv : b ≠ 11) (hf : b ≠ 12) :
    isJsonSpace b = true := by
  simp only [isJsonSpace, isByteSpace, List.mem_cons, List.not_mem_nil, or_false,
    decide_eq_true_eq] at h ⊢
  tauto

theorem OpensAt.mono {p q : UInt8 → Bool} {bytes : Bytes} {i : Nat}
    (hpq : ∀ b, p b = true → q b = true) (h : OpensAt p bytes i) : OpensAt q bytes i :=
  ⟨h.1, fun b hb => hpq b (h.2 b hb)⟩

theorem opensAt_behind {p : UInt8 → Bool} {pre : Bytes} (h : ∀ b ∈ pre, p b = true) (rest : Bytes) :
    OpensAt p (pre ++ openBracket :: rest) pre.length := by
  refine ⟨?_, fun b hb => h b ?_⟩
  · rw [List.getElem?_append_right (Nat.le_refl _), Nat.sub_self]
    rfl
  · rwa [List.take_left] at hb

/-- A file opens at one place at most. -/
theorem OpensAt.unique {p : UInt8 → Bool} (hp : p openBracket = false) {bytes : Bytes} {i j : Nat}
    (hi : OpensAt p bytes i) (hj : OpensAt p bytes j) : i = j := by
  have hle : ∀ {i j}, OpensAt p bytes i → OpensAt p bytes j → i ≤ j := by
    intro i j hi hj
    by_contra hlt
    have hm : openBracket ∈ bytes.take i := by
      rw [List.mem_iff_getElem?]
      exact ⟨j, by rw [List.getElem?_take, if_pos (by omega), hj.1]⟩
    have := hi.2 openBracket hm
    rw [hp] at this
    cases this
  exact Nat.le_antisymm (hle hi hj) (hle hj hi)

/-- What is left first after dropping the bytes of a kind. -/
theorem head_dropWhile {p : UInt8 → Bool} (hp : p openBracket = false) (bytes : Bytes) :
    (bytes.dropWhile p).head? = some openBracket ↔ ∃ i, OpensAt p bytes i := by
  induction bytes with
  | nil =>
    constructor
    · intro h; cases h
    · intro h
      obtain ⟨i, h, -⟩ := h
      cases h
  | cons b bytes ih =>
    by_cases hb : p b = true
    · rw [List.dropWhile_cons_of_pos hb, ih]
      constructor
      · intro h
        obtain ⟨i, hi, ha⟩ := h
        refine ⟨i + 1, hi, fun c hc => ?_⟩
        rcases List.mem_cons.mp hc with rfl | hc
        · exact hb
        · exact ha c hc
      · intro h
        obtain ⟨i, hi, ha⟩ := h
        cases i with
        | zero =>
          obtain rfl : b = openBracket := by simpa using hi
          rw [hp] at hb
          cases hb
        | succ i => exact ⟨i, hi, fun c hc => ha c (List.mem_cons_of_mem b hc)⟩
    · rw [List.dropWhile_cons_of_neg hb, List.head?_cons, Option.some.injEq]
      constructor
      · rintro rfl
        exact ⟨0, rfl, by simp⟩
      · intro h
        obtain ⟨i, hi, ha⟩ := h
        cases i with
        | zero => simpa using hi
        | succ i => exact absurd (ha b (by simp)) hb

theorem opensAt_take {p : UInt8 → Bool} {bytes : Bytes} {n i : Nat} :
    OpensAt p (bytes.take n) i ↔ i < n ∧ OpensAt p bytes i := by
  unfold OpensAt
  rw [List.getElem?_take]
  by_cases hi : i < n
  · rw [if_pos hi, List.take_take, Nat.min_eq_left (Nat.le_of_lt hi)]
    simp [hi]
  · rw [if_neg hi]
    simp [hi]

/-! ## Which files pass -/

/-- `submit` takes the request. -/
def Accepts (job : JobId) (inputPath : String) (file : InputFile) (model : Option String)
    (settings : Settings) : Prop :=
  ∃ row, submit job inputPath file model settings = .ok row

/-- A refused submission creates nothing; it names a check that failed. -/
theorem submit_rejected {job : JobId} {inputPath : String} {file : InputFile}
    {model : Option String} {settings : Settings}
    (h : ¬ Accepts job inputPath file model settings) :
    submit job inputPath file model settings =
        .error (validateSubmit inputPath file model settings) ∧
      validateSubmit inputPath file model settings ≠ [] := by
  unfold Accepts submit at *
  split at h
  · exact absurd ⟨_, rfl⟩ h
  · rename_i hne
    exact ⟨if_neg hne, hne⟩

/-- With a configured model a readable file passes iff it opens within the
first 64 bytes, behind what Python strips. -/
theorem accepts_iff (job : JobId) (inputPath : String) (bytes : Bytes) {model : Option String}
    {settings : Settings} (hm : modelOr model settings ≠ "") :
    Accepts job inputPath (.content bytes) model settings ↔
      ∃ i < headSize, OpensAt isByteSpace bytes i := by
  have hv : validateSubmit inputPath (.content bytes) model settings = [] ↔
      ((bytes.take headSize).dropWhile isByteSpace).head? = some openBracket := by
    simp only [validateSubmit, if_neg hm, fileErrors, List.append_nil]
    rw [if_neg (by simp)]
    split <;> simp [*]
  have ha : Accepts job inputPath (.content bytes) model settings ↔
      validateSubmit inputPath (.content bytes) model settings = [] := by
    unfold Accepts submit
    split
    · rename_i he
      exact iff_of_true ⟨_, rfl⟩ he
    · rename_i hne
      exact iff_of_false (by rintro ⟨_, he⟩; cases he) hne
  rw [ha, hv, head_dropWhile (by decide)]
  exact exists_congr fun i => opensAt_take

/-! ## Headline -/

/-- **The check agrees with the parser**, on a readable file and with a
configured model, exactly when the file does not open behind 64 or more bytes of
JSON whitespace, and no bracket within the first 64 bytes has a vertical tab or
a form feed among the whitespace before it. -/
theorem check_agrees_iff (job : JobId) (inputPath : String) (bytes : Bytes)
    {model : Option String} {settings : Settings} (hm : modelOr model settings ≠ "") :
    (Accepts job inputPath (.content bytes) model settings ↔
        ∃ i, OpensAt isJsonSpace bytes i) ↔
      (∀ i, OpensAt isJsonSpace bytes i → i < headSize) ∧
        ∀ i < headSize, OpensAt isByteSpace bytes i → 11 ∉ bytes.take i ∧ 12 ∉ bytes.take i := by
  have hj : ∀ {i}, OpensAt isJsonSpace bytes i → OpensAt isByteSpace bytes i :=
    fun h => h.mono fun _ => jsonSpace_byteSpace
  rw [accepts_iff job inputPath bytes hm]
  constructor
  · intro h
    refine ⟨fun i hi => ?_, fun i hi hb => ?_⟩
    · obtain ⟨j, hlt, hb⟩ := h.mpr ⟨i, hi⟩
      rwa [(hj hi).unique (by decide) hb]
    · obtain ⟨j, hjs⟩ := h.mp ⟨i, hi, hb⟩
      obtain rfl := hb.unique (by decide) (hj hjs)
      refine ⟨fun hv => ?_, fun hf => ?_⟩
      · have := hjs.2 11 hv
        revert this; decide
      · have := hjs.2 12 hf
        revert this; decide
  · intro h
    obtain ⟨hnear, hclean⟩ := h
    constructor
    · intro h
      obtain ⟨i, hi, hb⟩ := h
      obtain ⟨hv, hf⟩ := hclean i hi hb
      exact ⟨i, hb.1, fun b hm => byteSpace_jsonSpace (hb.2 b hm) (fun e => hv (e ▸ hm))
        fun e => hf (e ▸ hm)⟩
    · intro h
      obtain ⟨i, hi⟩ := h
      exact ⟨i, hnear i hi, hj hi⟩

/-! ## Non-vacuity -/

/-- An empty array behind `n` spaces. -/
def emptyArray (n : Nat) : Bytes := List.replicate n 32 ++ openBracket :: [93]

theorem emptyArray_opens (n : Nat) : OpensAt isJsonSpace (emptyArray n) n := by
  have h := @opensAt_behind isJsonSpace (List.replicate n 32)
    (fun b hb => (List.eq_of_mem_replicate hb) ▸ rfl) [93]
  rwa [List.length_replicate] at h

theorem emptyArray_unique {n i : Nat} (h : OpensAt isByteSpace (emptyArray n) i) : i = n :=
  h.unique rfl ((emptyArray_opens n).mono fun _ => jsonSpace_byteSpace)

theorem check_agrees_emptyArray :
    Accepts "j" "in.json" (.content (emptyArray 1)) none {} := by
  refine ((check_agrees_iff "j" "in.json" (emptyArray 1) (by decide)).mpr
    ⟨fun i hi => ?_, fun i _ hi => ?_⟩).mpr ⟨1, emptyArray_opens 1⟩
  · rw [emptyArray_unique (hi.mono fun _ => jsonSpace_byteSpace)]
    decide
  · rw [emptyArray_unique hi]
    decide

/-- Behind 64 spaces the check does not see the bracket. -/
theorem check_disagrees : ¬ ∀ (bytes : Bytes) (model : Option String) (settings : Settings),
    modelOr model settings ≠ "" → (Accepts "j" "in.json" (.content bytes) model settings ↔
      ∃ i, OpensAt isJsonSpace bytes i) := by
  intro h
  obtain ⟨i, hi, hb⟩ := (accepts_iff "j" "in.json" (emptyArray headSize) (by decide)).mp
    ((h (emptyArray headSize) none {} (by decide)).mpr ⟨_, emptyArray_opens headSize⟩)
  rw [emptyArray_unique hb] at hi
  exact absurd hi (Nat.lt_irrefl _)

end BatchSystem.Service
