import BatchSystem.Core.Lines
import BatchSystem.Domain.Models

/-!
# Validation rules and pipeline

A rule gives its messages and may change the context it shares with the other
rows: `uniqueExternalId` records the ids it has seen. `validateItem_ok` and
`validateItem_seen` say what the pipeline of `build_validation_pipeline` does
as a whole.
-/
namespace BatchSystem.Ingest

open BatchSystem.Core Domain

/-- mirrors app/interfaces/validation.py:13-17 -/
structure ValidationContext where
  seenIds : List String := []
  deriving DecidableEq, Repr

/-- mirrors app/interfaces/validation.py:20-23 -/
structure ValidationOutcome where
  ok : Bool
  errors : List String := []
  deriving DecidableEq, Repr

abbrev ValidationRule := PromptItem → ValidationContext → List String × ValidationContext

/-- mirrors app/services/validation/rules.py:8-14 -/
def nonEmptyExternalId : ValidationRule := fun item ctx =>
  if item.externalId = "" ∨ strip item.externalId.toList = [] then
    (["missing or empty external id"], ctx)
  else ([], ctx)

/-- mirrors app/services/validation/rules.py:17-27 -/
def nonEmptyPrompt (minChars : Int) : ValidationRule := fun item ctx =>
  if ((strip item.prompt.toList).length : Int) < minChars then
    (["prompt shorter than min_chars=" ++ toString minChars], ctx)
  else ([], ctx)

/-- mirrors app/services/validation/rules.py:30-42 -/
def maxPromptTokens (maxTokens : Int) : ValidationRule := fun item ctx =>
  if ((item.prompt.toList.length / 4 : Nat) : Int) > maxTokens then
    (["prompt ~" ++ toString (item.prompt.toList.length / 4) ++ " tokens exceeds max " ++
      toString maxTokens], ctx)
  else ([], ctx)

/-- mirrors app/services/validation/rules.py:45-52 -/
def uniqueExternalId : ValidationRule := fun item ctx =>
  if item.externalId ∈ ctx.seenIds then (["duplicate external id: " ++ item.externalId], ctx)
  else ([], { ctx with seenIds := item.externalId :: ctx.seenIds })

/-- mirrors app/composition.py:35-43 -/
def buildValidationPipeline (settings : Settings) : List ValidationRule :=
  [nonEmptyExternalId, nonEmptyPrompt settings.minPromptChars,
    maxPromptTokens settings.maxPromptTokens] ++
  if settings.rejectDuplicateIds then [uniqueExternalId] else []

/-- The loop over the rules. -/
def runRules : List ValidationRule → PromptItem → ValidationContext →
    List String × ValidationContext
  | [], _, ctx => ([], ctx)
  | rule :: rules, item, ctx =>
    let a := rule item ctx
    let b := runRules rules item a.2
    (a.1 ++ b.1, b.2)

/-- mirrors app/services/validation/pipeline.py:16-22 -/
def validateItem (rules : List ValidationRule) (item : PromptItem) (ctx : ValidationContext) :
    ValidationOutcome × ValidationContext :=
  let r := runRules rules item ctx
  ({ ok := r.1.isEmpty, errors := r.1 }, r.2)

/-! ## The pipeline as a whole -/

/-- What the three rules without memory ask of an item. -/
def WellFormed (settings : Settings) (item : PromptItem) : Prop :=
  strip item.externalId.toList ≠ [] ∧
  settings.minPromptChars ≤ (strip item.prompt.toList).length ∧
  ((item.prompt.toList.length / 4 : Nat) : Int) ≤ settings.maxPromptTokens

/-- The rule neither reads nor changes the context. -/
def Memoryless (rule : ValidationRule) : Prop :=
  ∀ item ctx ctx', rule item ctx = ((rule item ctx').1, ctx)

theorem nonEmptyExternalId_memoryless : Memoryless nonEmptyExternalId := by
  intro item ctx ctx'
  unfold nonEmptyExternalId
  split <;> rfl

theorem nonEmptyPrompt_memoryless (minChars : Int) : Memoryless (nonEmptyPrompt minChars) := by
  intro item ctx ctx'
  unfold nonEmptyPrompt
  split <;> rfl

theorem maxPromptTokens_memoryless (maxTokens : Int) : Memoryless (maxPromptTokens maxTokens) := by
  intro item ctx ctx'
  unfold maxPromptTokens
  split <;> rfl

variable {settings : Settings} (item : PromptItem) (ctx : ValidationContext)

/-- The rules without memory leave the context alone. -/
theorem runRules_pipeline : runRules (buildValidationPipeline settings) item ctx =
    ((nonEmptyExternalId item ctx).1 ++ ((nonEmptyPrompt settings.minPromptChars item ctx).1 ++
      ((maxPromptTokens settings.maxPromptTokens item ctx).1 ++
        if settings.rejectDuplicateIds then (uniqueExternalId item ctx).1 else [])),
      if settings.rejectDuplicateIds then (uniqueExternalId item ctx).2 else ctx) := by
  have h1 : (nonEmptyExternalId item ctx).2 = ctx :=
    congrArg Prod.snd (nonEmptyExternalId_memoryless item ctx ctx)
  have h2 : (nonEmptyPrompt settings.minPromptChars item ctx).2 = ctx :=
    congrArg Prod.snd (nonEmptyPrompt_memoryless _ item ctx ctx)
  have h3 : (maxPromptTokens settings.maxPromptTokens item ctx).2 = ctx :=
    congrArg Prod.snd (maxPromptTokens_memoryless _ item ctx ctx)
  cases hd : settings.rejectDuplicateIds <;>
    simp [buildValidationPipeline, runRules, hd, h1, h2, h3]

/-- An item passes if it is well formed and, under duplicate rejection, its id
is new. -/
theorem validateItem_ok : (validateItem (buildValidationPipeline settings) item ctx).1.ok = true ↔
    WellFormed settings item ∧
      (settings.rejectDuplicateIds = true → item.externalId ∉ ctx.seenIds) := by
  have h1 : (nonEmptyExternalId item ctx).1 = [] ↔ strip item.externalId.toList ≠ [] := by
    unfold nonEmptyExternalId
    split
    · rename_i h
      simp only [List.cons_ne_nil, false_iff, not_not]
      rcases h with h | h
      · rw [h]; rfl
      · exact h
    · rename_i h; simpa using fun hs => h (.inr hs)
  have h2 : (nonEmptyPrompt settings.minPromptChars item ctx).1 = [] ↔
      settings.minPromptChars ≤ (strip item.prompt.toList).length := by
    unfold nonEmptyPrompt; split <;> simp <;> omega
  have h3 : (maxPromptTokens settings.maxPromptTokens item ctx).1 = [] ↔
      ((item.prompt.toList.length / 4 : Nat) : Int) ≤ settings.maxPromptTokens := by
    unfold maxPromptTokens; split <;> simp <;> omega
  have h4 : (if settings.rejectDuplicateIds then (uniqueExternalId item ctx).1 else []) = [] ↔
      (settings.rejectDuplicateIds = true → item.externalId ∉ ctx.seenIds) := by
    unfold uniqueExternalId
    split
    · split <;> simp [*]
    · simp [*]
  simp only [validateItem, runRules_pipeline, List.isEmpty_iff, List.append_eq_nil_iff, h1, h2, h3,
    h4, WellFormed, and_assoc]

/-- Under duplicate rejection every validated id counts as seen, passed or
not; without it none does. -/
theorem validateItem_seen (x : String) :
    x ∈ (validateItem (buildValidationPipeline settings) item ctx).2.seenIds ↔
      x ∈ ctx.seenIds ∨ (settings.rejectDuplicateIds = true ∧ x = item.externalId) := by
  simp only [validateItem, runRules_pipeline, uniqueExternalId]
  split
  · rename_i hd
    simp only [hd, true_and]
    split
    · rename_i h
      constructor
      · exact .inl
      · intro hx
        rcases hx with hx | rfl
        · exact hx
        · exact h
    · rw [List.mem_cons, or_comm]
  · rename_i hd
    simp [hd]

end BatchSystem.Ingest
