import BatchSystem.Ingest.Reasons

/-!
# Two ingests that differ in one element

The runs share the set of seen ids, the buffer whose flush points count every
element, and the conflicts of the inserts. None of them carries anything from
the element to the rows of other ids.

* `entryOf_congr`: an entry depends on the ids seen only through its own id.
* `entries_agree`: so the two runs make the same entries for every other id.
* `candidates_agree`: and their calls, cut at the same places, the same
  candidates, up to the `error` column.
* `ingest_isolated`: so the rows of every other id have the same status and
  prompt. Their `error` may differ: it is dropped when the call has a prompt.
-/
namespace BatchSystem.Ingest

open BatchSystem.Core Domain Queue Service PromptItems

variable {text : Json → String} {settings : Settings}

/-- The row of a job for an external id; the table has at most one. -/
def rowFor (t : PromptItems) (job : JobId) (x : String) : Option ItemRow :=
  t.rows.find? fun r => r.key = (job, x)

/-- What the ingest decided about a row. -/
def verdict (r : ItemRow) : ItemStatus × Option String := (r.status, r.prompt)

/-- The arrays have the same length and the same elements except at `j`. -/
structure DifferAt (j : Nat) (es es' : List Json) : Prop where
  length : es.length = es'.length
  same : ∀ i, i ≠ j → es[i]? = es'[i]?

/-- Element `j`, if there is one, has another id than `x`. -/
def OtherId (text : Json → String) (es : List Json) (j : Nat) (x : String) : Prop :=
  ∀ obj, es[j]? = some obj → elementId text obj (j + 1) ≠ x

/-! ## The entries -/

/-- Of the ids seen only the item's own matters to its validation. -/
theorem validateItem_congr {item : PromptItem} {ctx ctx' : ValidationContext}
    (h : item.externalId ∈ ctx.seenIds ↔ item.externalId ∈ ctx'.seenIds) :
    (validateItem (buildValidationPipeline settings) item ctx).1 =
      (validateItem (buildValidationPipeline settings) item ctx').1 := by
  have h4 : (uniqueExternalId item ctx).1 = (uniqueExternalId item ctx').1 := by
    unfold uniqueExternalId
    by_cases hs : item.externalId ∈ ctx.seenIds
    · rw [if_pos hs, if_pos (h.mp hs)]
    · rw [if_neg hs, if_neg fun hs' => hs (h.mpr hs')]
  simp only [validateItem, runRules_pipeline, h4, nonEmptyExternalId_memoryless item ctx ctx',
    nonEmptyPrompt_memoryless settings.minPromptChars item ctx ctx',
    maxPromptTokens_memoryless settings.maxPromptTokens item ctx ctx']

theorem entryOf_congr {n : Nat} {obj : Json} {ctx ctx' : ValidationContext}
    (h : elementId text obj n ∈ ctx.seenIds ↔ elementId text obj n ∈ ctx'.seenIds) :
    (entryOf text (buildValidationPipeline settings) n obj ctx).1 =
      (entryOf text (buildValidationPipeline settings) n obj ctx').1 := by
  unfold entryOf
  rcases ht : toItem text obj n with ⟨_ | item, e⟩
  · rfl
  · have hid : elementId text obj n = item.externalId := elementId_of_item (by rw [ht])
    rw [hid] at h
    simp only [@validateItem_congr settings _ _ _ h]
    split <;> rfl

section agree
variable {es es' : List Json} {j : Nat} {x : String}

/-- An item with the id `x` stands at the same places of both arrays. -/
theorem itemAt_agree (hd : DifferAt j es es') (hx : OtherId text es j x) {i : Nat}
    {item : PromptItem} (hi : itemAt text es i = some item) (hid : item.externalId = x) :
    itemAt text es' i = some item := by
  obtain ⟨obj, ho, ht⟩ := Option.bind_eq_some_iff.mp hi
  have hij : i ≠ j := by
    rintro rfl
    exact hx obj ho ((elementId_of_item ht).trans hid)
  rw [itemAt, ← hd.same i hij]
  exact hi

theorem DifferAt.symm (hd : DifferAt j es es') : DifferAt j es' es :=
  ⟨hd.length.symm, fun i hi => (hd.same i hi).symm⟩

/-- Both runs make the same entry of an element with the id `x`. -/
theorem entries_agree (hd : DifferAt j es es') (hx : OtherId text es j x)
    (hx' : OtherId text es' j x) {k : Nat} {e e' : Entry}
    (he : (entries text (buildValidationPipeline settings) es)[k]? = some e)
    (he' : (entries text (buildValidationPipeline settings) es')[k]? = some e')
    (hid : e.externalId = x ∨ e'.externalId = x) : e = e' := by
  obtain ⟨obj, ho⟩ := exists_element he
  obtain ⟨obj', ho'⟩ := exists_element he'
  obtain ⟨ctx, hg, hs⟩ := entries_get text settings ho
  obtain ⟨ctx', hg', hs'⟩ := entries_get text settings ho'
  obtain rfl := Option.some.inj (hg.symm.trans he)
  obtain rfl := Option.some.inj (hg'.symm.trans he')
  simp only [entryOf_externalId] at hid
  have hkj : k ≠ j := by
    rintro rfl
    rcases hid with hid | hid
    · exact hx obj ho hid
    · exact hx' obj' ho' hid
  obtain rfl : obj = obj' := by
    rw [hd.same k hkj, ho'] at ho
    exact (Option.some.inj ho).symm
  have hid' : elementId text obj (k + 1) = x := or_self_iff.mp hid
  refine entryOf_congr ?_
  rw [hid', hs, hs']
  refine and_congr_right fun _ => exists_congr fun i => and_congr_right fun _ =>
    exists_congr fun item => and_congr_left fun hi => ?_
  constructor
  · exact fun h => itemAt_agree hd hx h hi
  · exact fun h => itemAt_agree hd.symm hx' h hi

end agree

/-! ## The candidates -/

/-- The same entry, unless neither is about `x`. -/
def Agree (x : String) (e e' : Entry) : Prop := e.externalId = x ∨ e'.externalId = x → e = e'

theorem filter_agree {x : String} {es es' : List Entry} (h : List.Forall₂ (Agree x) es es') :
    es.filter (fun e => e.externalId = x) = es'.filter fun e => e.externalId = x := by
  induction h with
  | nil => rfl
  | @cons e e' es es' he _ ih =>
    by_cases hx : e.externalId = x ∨ e'.externalId = x
    · obtain rfl := he hx
      simp only [List.filter_cons, ih]
    · simp only [not_or] at hx
      simp only [List.filter_cons, hx.1, hx.2, decide_false, ih]
      rfl

theorem filter_batch (x : String) (es : List Entry) :
    batch (es.filter fun e => e.externalId = x) =
      ((batch es).1.filter fun item => item.externalId = x,
        (batch es).2.filter fun fr => fr.externalId = x) := by
  induction es with
  | nil => rfl
  | cons e es ih =>
    rw [← List.singleton_append, List.filter_append, batch_append, batch_append, ih,
      batch_singleton]
    cases e with
    | accepted item =>
      by_cases hx : item.externalId = x <;>
        simp [Entry.externalId, hx, batch, Entry.item?, Entry.failed?]
    | rejected fr =>
      by_cases hx : fr.externalId = x <;>
        simp [Entry.externalId, hx, batch, Entry.item?, Entry.failed?]

/-- The verdicts of one call, in the order of its candidates. -/
def verdicts (es : List Entry) : List (ItemStatus × Option String) :=
  (batch es).1.map (fun item => (.pending, some item.prompt)) ++
    (batch es).2.map fun _ => (.failed, none)

/-- The candidates for `x`, up to their `error` column, from the entries for
`x` alone. -/
theorem candidates_verdicts (job : JobId) (x : String) (bs : List (List Entry)) :
    ((candidates job bs).filter fun r => r.key = (job, x)).map verdict =
      bs.flatMap fun es => verdicts (es.filter fun e => e.externalId = x) := by
  have hp : ∀ items : List PromptItem,
      (((items.map (pendingRow job)).filter fun r => r.key = (job, x)).map verdict) =
        (items.filter fun item => item.externalId = x).map
          fun item => (ItemStatus.pending, some item.prompt) := by
    intro items
    have hk : (fun r : ItemRow => decide (r.key = (job, x))) ∘ pendingRow job =
        fun item => decide (item.externalId = x) := by
      funext item
      exact decide_eq_decide.mpr (by simp [ItemRow.key, pendingRow])
    rw [List.filter_map, List.map_map, hk]
    rfl
  have hf : ∀ (withError : Bool) (failed : List ResultRecord),
      (((failed.map (failedRow job withError)).filter fun r => r.key = (job, x)).map verdict) =
        (failed.filter fun fr => fr.externalId = x).map fun _ => (ItemStatus.failed, none) := by
    intro withError failed
    have hk : (fun r : ItemRow => decide (r.key = (job, x))) ∘ failedRow job withError =
        fun fr => decide (fr.externalId = x) := by
      funext fr
      exact decide_eq_decide.mpr (by simp [ItemRow.key, failedRow])
    rw [List.filter_map, List.map_map, hk]
    rfl
  induction bs with
  | nil => rfl
  | cons es bs ih =>
    have hc : candidates job (es :: bs) =
        insertRows job (batch es).1 (batch es).2 ++ candidates job bs := rfl
    rw [hc, List.filter_append, List.map_append, ih, List.flatMap_cons, insertRows,
      List.filter_append, List.map_append, hp, hf, verdicts, filter_batch]

theorem candidates_agree {x : String} {bs bs' : List (List Entry)}
    (h : List.Forall₂ (List.Forall₂ (Agree x)) bs bs') (job job' : JobId) :
    ((candidates job bs).filter fun r => r.key = (job, x)).map verdict =
      ((candidates job' bs').filter fun r => r.key = (job', x)).map verdict := by
  rw [candidates_verdicts, candidates_verdicts]
  induction h with
  | nil => rfl
  | cons he _ ih => rw [List.flatMap_cons, List.flatMap_cons, ih, filter_agree he]

/-! ## The rows -/

variable (text) in
/-- The row of an id after an ingest: the first candidate. -/
theorem rowFor_ingest (rules : List ValidationRule) (elements : List Json) (jobs : Jobs)
    {t : PromptItems} {job : JobId} (ht : ∀ r ∈ t.rows, r.jobId ≠ job) (x : String) :
    ∃ bs, Blocks insertBatch bs (entries text rules elements) ∧
      (rowFor (ingest text rules t jobs job elements).1 job x).map verdict =
        (((candidates job bs).filter fun r => r.key = (job, x)).map verdict).head? := by
  obtain ⟨bs, hb, hrows⟩ := ingest_rows text rules elements jobs ht
  refine ⟨bs, hb, ?_⟩
  have hcontent : ∀ rows : List ItemRow,
      (rows.find? fun r => r.key = (job, x)).map verdict =
        ((rows.map ItemRow.content).find? fun r => r.key = (job, x)).map verdict := by
    intro rows
    rw [List.find?_map, Option.map_map]
    rfl
  have hold : (t.rows.map ItemRow.content).find? (fun r => r.key = (job, x)) = none := by
    rw [List.find?_eq_none]
    intro c hc
    obtain ⟨r, hr, rfl⟩ := List.mem_map.mp hc
    have hne := ht r hr
    simp only [ItemRow.key, Prod.mk.injEq, decide_eq_true_eq]
    exact fun h => hne h.1
  rw [rowFor, hcontent, hrows, List.find?_append, hold, Option.none_or,
    find?_firstWins List.not_mem_nil, ← List.head?_filter, List.head?_map]

/-! ## Headline -/

/-- **Bad rows are isolated**: whatever stands at position `j`, the row of every
other id is there or not, pending or failed, and holds the same prompt. -/
theorem ingest_isolated {es es' : List Json} {j : Nat} (hd : DifferAt j es es')
    {t t' : PromptItems} {jobs jobs' : Jobs} {job job' : JobId} (ht : ∀ r ∈ t.rows, r.jobId ≠ job)
    (ht' : ∀ r ∈ t'.rows, r.jobId ≠ job') {x : String} (hx : OtherId text es j x)
    (hx' : OtherId text es' j x) :
    (rowFor (ingest text (buildValidationPipeline settings) t jobs job es).1 job x).map verdict =
      (rowFor (ingest text (buildValidationPipeline settings) t' jobs' job' es').1 job' x).map
        verdict := by
  have hagree : List.Forall₂ (Agree x) (entries text (buildValidationPipeline settings) es)
      (entries text (buildValidationPipeline settings) es') := by
    rw [List.forall₂_iff_get]
    refine ⟨?_, fun k h h' => ?_⟩
    · rw [entries, entries, entriesFrom_length, entriesFrom_length, hd.length]
    · exact entries_agree hd hx hx' (List.getElem?_eq_getElem h) (List.getElem?_eq_getElem h')
  obtain ⟨bs, hb, hrow⟩ :=
    rowFor_ingest text (buildValidationPipeline settings) es jobs ht x
  obtain ⟨bs', hb', hrow'⟩ :=
    rowFor_ingest text (buildValidationPipeline settings) es' jobs' ht' x
  rw [hrow, hrow', candidates_agree (hb.forall₂ (by decide) hb' hagree)]

/-! ## Non-vacuity -/

/-- A good row before a malformed element. -/
def goodThenNull : List Json := [.obj [("id", .str "a"), ("prompt", .str "hi")], .null]

/-- The same with a second good row in the malformed one's place. -/
def goodThenGood : List Json :=
  [.obj [("id", .str "a"), ("prompt", .str "hi")], .obj [("id", .str "b"), ("prompt", .str "ho")]]

/-- The row of `a` is pending beside either. -/
theorem ingest_isolated_good :
    (rowFor (ingest noText (buildValidationPipeline {}) .empty .empty "j" goodThenNull).1 "j"
      "a").map verdict =
    (rowFor (ingest noText (buildValidationPipeline {}) .empty .empty "k" goodThenGood).1 "k"
      "a").map verdict := by
  have hd : DifferAt 1 goodThenNull goodThenGood := by
    refine ⟨rfl, fun i hi => ?_⟩
    rcases i with _ | _ | i
    · rfl
    · exact absurd rfl hi
    · rfl
  refine ingest_isolated hd (by simp [PromptItems.empty]) (by simp [PromptItems.empty]) ?_ ?_
  · intro obj ho
    cases ho
    decide
  · intro obj ho
    cases ho
    decide

end BatchSystem.Ingest
