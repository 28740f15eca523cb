import BatchSystem.Ingest.Accepted

/-!
# What an ingest accepts

`ingest_accepts` says it in terms of the file alone: which elements are
accepted when duplicates are rejected, that they have distinct ids, that their
prompts are what the `bulk_insert` calls carry, and what the summary counts.

An element is compared with all items before it, accepted or rejected. A
malformed element before it does not count, and a generated `row-k` is an id
like any other.
-/
namespace BatchSystem.Ingest

open BatchSystem.Core Domain Queue Service
open Core.Json (lookup)

variable {text : Json → String} {settings : Settings}

/-- Element `k`, counted from 0, is an object whose prompt is the string
`prompt`, and its external id is `x`. -/
def HasPrompt (text : Json → String) (elements : List Json) (k : Nat) (x prompt : String) : Prop :=
  ∃ ms, elements[k]? = some (.obj ms) ∧ lookup ms "prompt" = some (.str prompt) ∧
    x = externalIdOf text ms (k + 1)

theorem toItem_eq_some {obj : Json} {n : Nat} {item : PromptItem} :
    (toItem text obj n).1 = some item ↔ ∃ ms, obj = .obj ms ∧
      lookup ms "prompt" = some (.str item.prompt) ∧ item.externalId = externalIdOf text ms n := by
  constructor
  · intro h
    unfold toItem at h
    split at h
    · rename_i ms
      split at h
      · rename_i prompt hp
        cases h
        exact ⟨ms, rfl, hp, rfl⟩
      · cases h
    · cases h
  · intro h
    obtain ⟨ms, rfl, hp, hx⟩ := h
    simp only [toItem, hp, ← hx]

theorem itemAt_eq_some {elements : List Json} {k : Nat} {item : PromptItem} :
    itemAt text elements k = some item ↔
      HasPrompt text elements k item.externalId item.prompt := by
  simp only [itemAt, Option.bind_eq_some_iff, toItem_eq_some, HasPrompt]
  constructor
  · intro h
    obtain ⟨_, hk, ms, rfl, h⟩ := h
    exact ⟨ms, hk, h⟩
  · intro h
    obtain ⟨ms, hk, h⟩ := h
    exact ⟨_, hk, ms, rfl, h⟩

/-- Of two accepted elements the later one would have been a duplicate. -/
theorem accepted_inj (hd : settings.rejectDuplicateIds = true) {elements : List Json} {i k : Nat}
    {item other : PromptItem} (hi : Accepted text settings elements i item)
    (hk : Accepted text settings elements k other) (he : item.externalId = other.externalId) :
    i = k := by
  have hi' := accepted_iff.mp hi
  have hk' := accepted_iff.mp hk
  by_contra hne
  rcases Nat.lt_or_gt_of_ne hne with h | h
  · exact hk'.2.2 hd i h item hi'.1 he
  · exact hi'.2.2 hd k h other hk'.1 he.symm

/-- The prompts that the `bulk_insert` calls carry, in order. -/
theorem flushed_items (rules : List ValidationRule) (elements : List Json) :
    (ingestLoop text rules elements).flushed.flatMap Prod.fst =
      (entries text rules elements).filterMap Entry.item? := by
  obtain ⟨bs, hb, hf⟩ := ingestLoop_batches text rules elements
  rw [hf, ← hb.flatten_eq, List.filterMap_flatten, List.flatMap_map, List.flatMap_def]
  rfl

/-! ## Headline -/

/-- **Acceptance**: for every file, exactly the elements that are objects with
a string prompt, a nonblank id that no such element before has, a long enough
and short enough prompt. -/
theorem ingest_accepts (hd : settings.rejectDuplicateIds = true) (elements : List Json)
    (t : PromptItems) (jobs : Jobs) (job : JobId) :
    (∀ k item, Accepted text settings elements k item ↔
      HasPrompt text elements k item.externalId item.prompt ∧
      strip item.externalId.toList ≠ [] ∧
      settings.minPromptChars ≤ (strip item.prompt.toList).length ∧
      ((item.prompt.toList.length / 4 : Nat) : Int) ≤ settings.maxPromptTokens ∧
      ∀ i < k, ∀ x prompt, HasPrompt text elements i x prompt → x ≠ item.externalId) ∧
    (∀ i k item other, Accepted text settings elements i item →
      Accepted text settings elements k other → item.externalId = other.externalId → i = k) ∧
    (ingestLoop text (buildValidationPipeline settings) elements).flushed.flatMap Prod.fst =
      (entries text (buildValidationPipeline settings) elements).filterMap Entry.item? ∧
    let summary := (ingest text (buildValidationPipeline settings) t jobs job elements).2.2
    summary.total = summary.accepted + summary.rejected ∧ summary.total = elements.length ∧
      summary.accepted =
        ((entries text (buildValidationPipeline settings) elements).filterMap
          Entry.item?).length := by
  refine ⟨fun k item => ?_, fun i k item other => accepted_inj hd,
    flushed_items (buildValidationPipeline settings) elements, ?_⟩
  · rw [accepted_iff, itemAt_eq_some, WellFormed, and_assoc, and_assoc]
    refine and_congr_right fun _ => and_congr_right fun _ => and_congr_right fun _ =>
      and_congr_right fun _ => ?_
    constructor
    · intro h i hi x prompt hp
      exact h hd i hi ⟨x, prompt⟩ (itemAt_eq_some.mpr hp)
    · intro h _ i hi other ho
      exact h i hi other.externalId other.prompt (itemAt_eq_some.mp ho)
  · obtain ⟨h1, h2, h3⟩ := ingestLoop_counters text (buildValidationPipeline settings) elements
    have hl := batch_length (entries text (buildValidationPipeline settings) elements)
    have hn : (entries text (buildValidationPipeline settings) elements).length =
        elements.length := by rw [entries, entriesFrom_length]
    simp only [ingest, h1, h2, h3]
    refine ⟨by omega, trivial, rfl⟩

/-! ## Non-vacuity -/

/-- Two prompts with the same id, and an element that is none. -/
def twice : List Json :=
  [.obj [("id", .str "a"), ("prompt", .str "hi")], .obj [("id", .str "a"), ("prompt", .str "ho")],
    .null]

theorem ingest_accepts_twice : ({} : Settings).rejectDuplicateIds = true ∧
    Accepted noText {} twice 0 ⟨"a", "hi"⟩ ∧ ¬ Accepted noText {} twice 1 ⟨"a", "ho"⟩ ∧
    (ingest noText (buildValidationPipeline {}) .empty .empty "j" twice).2.2 = ⟨3, 1, 2⟩ := by
  have h := @ingest_accepts noText {} rfl twice .empty .empty "j"
  refine ⟨rfl, (h.1 0 ⟨"a", "hi"⟩).mpr ⟨⟨_, rfl, rfl, rfl⟩, by decide, by decide, by decide, ?_⟩, ?_,
    rfl⟩
  · intro i hi; omega
  · intro ha
    exact ((h.1 1 _).mp ha).2.2.2.2 0 (by omega) "a" "hi" ⟨_, rfl, rfl, rfl⟩ rfl

end BatchSystem.Ingest
