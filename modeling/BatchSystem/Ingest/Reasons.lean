import BatchSystem.Ingest.Accepted

/-!
# The error column of a rejected element

Its record carries the message, and `bulk_insert` names an `error` column only
when its first dictionary has one. The prompts come first, so the messages of a
call are stored iff the call has no prompt (`rejected_row`).

* `reasons_kept_iff`: so the reasons are kept exactly when no element that
  passes is among the 500 of a rejected one.
* `reason_dropped`: one good and one bad element are enough to lose one.
-/
namespace BatchSystem.Ingest

open BatchSystem.Core Domain Queue Service PromptItems

variable {text : Json → String} {settings : Settings}

/-- Element `k`, counted from 0, is rejected with the record `fr`. -/
def Rejected (text : Json → String) (settings : Settings) (elements : List Json) (k : Nat)
    (fr : ResultRecord) : Prop :=
  (entries text (buildValidationPipeline settings) elements)[k]? = some (.rejected fr)

/-- No element other than `k` is reported under the id `x`. -/
def SoleId (text : Json → String) (elements : List Json) (k : Nat) (x : String) : Prop :=
  ∀ i obj, elements[i]? = some obj → i ≠ k → elementId text obj (i + 1) ≠ x

/-- The table has a failed row of the record's id with the record's message. -/
def ReasonRow (t : PromptItems) (job : JobId) (fr : ResultRecord) : Prop :=
  ∃ r ∈ t.rows, r.jobId = job ∧ r.externalId = fr.externalId ∧ r.status = .failed ∧
    r.error = fr.error

/-- Element `k` is a well-formed item and, under duplicate rejection, none
before it has its id. -/
def Admissible (text : Json → String) (settings : Settings) (elements : List Json) (k : Nat) :
    Prop :=
  ∃ item, itemAt text elements k = some item ∧ WellFormed settings item ∧
    (settings.rejectDuplicateIds = true → ∀ i < k, ∀ other,
      itemAt text elements i = some other → other.externalId ≠ item.externalId)

/-! ## Which elements are rejected -/

theorem admissible_iff {elements : List Json} {k : Nat} :
    Admissible text settings elements k ↔ ∃ item, Accepted text settings elements k item := by
  simp only [Admissible, accepted_iff]

variable (text settings) in
/-- The entry of an element carries the element's id. -/
theorem entry_id {elements : List Json} {k : Nat} {obj : Json} (hk : elements[k]? = some obj) :
    ∃ e, (entries text (buildValidationPipeline settings) elements)[k]? = some e ∧
      e.externalId = elementId text obj (k + 1) := by
  obtain ⟨ctx, he, -⟩ := entries_get text settings hk
  exact ⟨_, he, entryOf_externalId _ _ _ _⟩

/-- An element is rejected iff it is not admissible. -/
theorem rejected_iff {elements : List Json} {k : Nat} {obj : Json}
    (hk : elements[k]? = some obj) : (∃ fr, Rejected text settings elements k fr) ↔
      ¬ Admissible text settings elements k := by
  obtain ⟨e, he, -⟩ := entry_id text settings hk
  rw [admissible_iff]
  simp only [Rejected, Accepted, he, Option.some.injEq]
  cases e with
  | accepted item => simp
  | rejected fr => simp

theorem rejected_id {elements : List Json} {k : Nat} {obj : Json} {fr : ResultRecord}
    (hk : elements[k]? = some obj) (h : Rejected text settings elements k fr) :
    fr.externalId = elementId text obj (k + 1) := by
  obtain ⟨e, he, hid⟩ := entry_id text settings hk
  rw [← hid, Option.some.inj (he.symm.trans h)]
  rfl

/-- Every rejected element has a message. -/
theorem entryOf_error {rules : List ValidationRule} {n : Nat} {obj : Json}
    {ctx : ValidationContext} {fr : ResultRecord} (h : (entryOf text rules n obj ctx).1 =
      .rejected fr) : fr.error ≠ none := by
  unfold entryOf at h
  split at h
  · cases h; simp
  · simp only at h
    split at h
    · cases h
    · cases h; simp

theorem rejected_error {elements : List Json} {k : Nat} {fr : ResultRecord}
    (h : Rejected text settings elements k fr) : fr.error ≠ none := by
  obtain ⟨obj, hk⟩ := exists_element h
  obtain ⟨ctx, he, -⟩ := entries_get text settings hk
  exact entryOf_error (Option.some.inj (he.symm.trans h))

/-! ## The row of a rejected element -/

/-- The call in which an element with an id of its own goes out. -/
theorem mem_call {bs : List (List Entry)} {es : List Entry} (hb : Blocks insertBatch bs es)
    {c : List Entry} (hc : c ∈ bs) {k : Nat} {e : Entry} (he : e ∈ c)
    (hu : ∀ i f, es[i]? = some f → i ≠ k → f.externalId ≠ e.externalId) (f : Entry) :
    f ∈ c ↔ ∃ i, es[i]? = some f ∧ i / insertBatch = k / insertBatch := by
  obtain ⟨q, hq⟩ := hb.mem_block (by decide) hc
  obtain ⟨j, hj, hjq⟩ := (hq e).mp he
  have hjk : j = k := by
    by_contra hne
    exact hu j e hj hne rfl
  rw [hq, ← hjq, hjk]

/-- A rejected element whose id is its own: its row goes in, with a message iff
no accepted element is in its call. -/
theorem rejected_row (rules : List ValidationRule) (elements : List Json) (jobs : Jobs)
    {t : PromptItems} {job : JobId} (ht : ∀ r ∈ t.rows, r.jobId ≠ job) {k : Nat}
    {fr : ResultRecord} (hk : (entries text rules elements)[k]? = some (.rejected fr))
    (hu : ∀ i e, (entries text rules elements)[i]? = some e → i ≠ k →
      e.externalId ≠ fr.externalId) :
    ∃ withError : Bool, (withError = true ↔ ∀ i item,
        (entries text rules elements)[i]? = some (.accepted item) →
          i / insertBatch ≠ k / insertBatch) ∧
      ∃ r ∈ (ingest text rules t jobs job elements).1.rows,
        r.content = failedRow job withError fr := by
  obtain ⟨bs, hb, hrows⟩ := ingest_rows text rules elements jobs ht
  have hmem : Entry.rejected fr ∈ bs.flatten := by
    rw [hb.flatten_eq]; exact List.mem_of_getElem? hk
  obtain ⟨c, hc, hfr⟩ := List.mem_flatten.mp hmem
  have hempty : ∀ {d}, d ∈ bs → .rejected fr ∈ d → ((batch d).1.isEmpty = true ↔ ∀ i item,
      (entries text rules elements)[i]? = some (.accepted item) →
        i / insertBatch ≠ k / insertBatch) := by
    intro d hd hdr
    have hsame := mem_call hb hd hdr hu
    rw [List.isEmpty_iff, List.eq_nil_iff_forall_not_mem]
    constructor
    · intro h i item hi hq
      exact h item (mem_batch_items.mpr ((hsame _).mpr ⟨i, hi, hq⟩))
    · intro h item hi
      obtain ⟨i, hget, hq⟩ := (hsame _).mp (mem_batch_items.mp hi)
      exact h i item hget hq
  refine ⟨(batch c).1.isEmpty, hempty hc hfr, ?_⟩
  have hin : failedRow job (batch c).1.isEmpty fr ∈
      firstWins ItemRow.key [] (candidates job bs) := by
    refine mem_firstWins_of_sole (by simp) ?_ fun x hx hkey => ?_
    · exact List.mem_flatMap.mpr ⟨c, hc, List.mem_append_right _
        (List.mem_map_of_mem (mem_batch_failed.mpr hfr))⟩
    · -- another candidate with the id comes from the same element, so from the same call
      obtain ⟨d, hd, hxd⟩ := List.mem_flatMap.mp hx
      have hown : ∀ e ∈ d, e.externalId = fr.externalId → e = .rejected fr := by
        intro e he hid
        have hef : e ∈ bs.flatten := List.mem_flatten.mpr ⟨d, hd, he⟩
        rw [hb.flatten_eq] at hef
        obtain ⟨i, hi⟩ := List.mem_iff_getElem?.mp hef
        have hik : i = k := by
          by_contra hne
          exact hu i e hi hne hid
        rw [hik, hk] at hi
        exact (Option.some.inj hi).symm
      rcases List.mem_append.mp hxd with hp | hp
      · obtain ⟨item, hi, rfl⟩ := List.mem_map.mp hp
        cases hown _ (mem_batch_items.mp hi) (congrArg Prod.snd hkey)
      · obtain ⟨fr', hi, rfl⟩ := List.mem_map.mp hp
        have he := hown _ (mem_batch_failed.mp hi) (congrArg Prod.snd hkey)
        obtain rfl : fr' = fr := by cases he; rfl
        rw [Bool.eq_iff_iff.mpr ((hempty hd (mem_batch_failed.mp hi)).trans (hempty hc hfr).symm)]
  have hin' : failedRow job (batch c).1.isEmpty fr ∈
      ((ingest text rules t jobs job elements).1.rows).map ItemRow.content := by
    rw [hrows]; exact List.mem_append_right _ hin
  obtain ⟨r, hr, he⟩ := List.mem_map.mp hin'
  exact ⟨r, hr, he⟩

/-- The reason is kept iff the statement had an `error` column. -/
theorem reasonRow_iff {t : PromptItems} {job : JobId} {fr : ResultRecord} {withError : Bool}
    {r : ItemRow} (hr : r ∈ t.rows) (hc : r.content = failedRow job withError fr)
    (hne : fr.error ≠ none) : ReasonRow t job fr ↔ withError = true := by
  have hj : r.jobId = job := congrArg ItemRow.jobId hc
  have hx : r.externalId = fr.externalId := congrArg ItemRow.externalId hc
  have hs : r.status = .failed := congrArg ItemRow.status hc
  have he : r.error = if withError then fr.error else none := congrArg ItemRow.error hc
  constructor
  · intro h
    obtain ⟨r', hr', hj', hx', -, he'⟩ := h
    rw [t.key_inj hr' hr (hj'.trans hj.symm) (hx'.trans hx.symm), he] at he'
    cases withError with
    | true => rfl
    | false => exact absurd he'.symm hne
  · intro h
    rw [if_pos h] at he
    exact ⟨r, hr, hj, hx, hs, he⟩

/-! ## Headline -/

section kept
variable {elements : List Json} {t : PromptItems} {jobs : Jobs} {job : JobId}

/-- What becomes of the reason of one rejected element. -/
theorem reasonRow_rejected (ht : ∀ r ∈ t.rows, r.jobId ≠ job) {k : Nat} {fr : ResultRecord}
    (hk : Rejected text settings elements k fr) (hs : SoleId text elements k fr.externalId) :
    ReasonRow (ingest text (buildValidationPipeline settings) t jobs job elements).1 job fr ↔
      ∀ i, Admissible text settings elements i → i / insertBatch ≠ k / insertBatch := by
  have hu : ∀ i e, (entries text (buildValidationPipeline settings) elements)[i]? = some e →
      i ≠ k → e.externalId ≠ fr.externalId := by
    intro i e hi hne
    obtain ⟨obj, ho⟩ := exists_element hi
    obtain ⟨e', he', hid⟩ := entry_id text settings ho
    rw [Option.some.inj (hi.symm.trans he'), hid]
    exact hs i obj ho hne
  obtain ⟨withError, hw, r, hr, hc⟩ :=
    rejected_row (buildValidationPipeline settings) elements jobs ht hk hu
  rw [reasonRow_iff hr hc (rejected_error hk), hw]
  simp only [admissible_iff, Accepted, forall_exists_index]

end kept

/-- **The reasons of rejected elements are kept**, exactly when no admissible
element goes out with one of them. -/
theorem reasons_kept_iff {t : PromptItems} {jobs : Jobs} {job : JobId}
    (ht : ∀ r ∈ t.rows, r.jobId ≠ job) (elements : List Json) :
    (∀ k fr, Rejected text settings elements k fr → SoleId text elements k fr.externalId →
      ReasonRow (ingest text (buildValidationPipeline settings) t jobs job elements).1 job fr) ↔
    ∀ k obj, elements[k]? = some obj → ¬ Admissible text settings elements k →
      SoleId text elements k (elementId text obj (k + 1)) →
      ∀ i, Admissible text settings elements i → i / insertBatch ≠ k / insertBatch := by
  constructor
  · intro h k obj hk hna hs
    obtain ⟨fr, hfr⟩ := (rejected_iff hk).mpr hna
    have hid := rejected_id hk hfr
    rw [← hid] at hs
    exact (reasonRow_rejected ht hfr hs).mp (h k fr hfr hs)
  · intro h k fr hfr hs
    obtain ⟨obj, hk⟩ := exists_element hfr
    refine (reasonRow_rejected ht hfr hs).mpr (h k obj hk ((rejected_iff hk).mp ⟨fr, hfr⟩) ?_)
    rwa [← rejected_id hk hfr]

/-! ## Non-vacuity -/

/-- The record of a second element that is no object. -/
def secondRow : ResultRecord where
  externalId := "row-2"
  status := .failed
  error := some "validation: malformed item (missing/invalid prompt)"

/-- Two bad elements alone: the reasons are kept. -/
theorem reasons_kept_null : ReasonRow
    (ingest noText (buildValidationPipeline {}) .empty .empty "j" [.null, .null]).1 "j"
    secondRow := by
  have hna : ∀ i, ¬ Admissible noText {} [.null, .null] i := by
    intro i h
    obtain ⟨item, hi, -⟩ := h
    rcases i with _ | _ | i <;> cases hi
  refine (reasons_kept_iff (by simp [PromptItems.empty]) _).mpr
    (fun _ _ _ _ _ i hi => absurd hi (hna i)) 1 _ rfl ?_
  intro i obj hi hne
  rcases i with _ | _ | i
  · cases hi; decide
  · exact absurd rfl hne
  · cases hi

/-- A prompt, then an element that is none. -/
def mixed : List Json := [.obj [("id", .str "a"), ("prompt", .str "hi")], .null]

theorem reason_dropped : ¬ ∀ (elements : List Json) (k : Nat) (fr : ResultRecord),
    Rejected noText {} elements k fr → SoleId noText elements k fr.externalId →
      ReasonRow (ingest noText (buildValidationPipeline {}) .empty .empty "j" elements).1 "j"
        fr := by
  intro h
  have hr : Rejected noText {} mixed 1 secondRow := rfl
  have hs : SoleId noText mixed 1 "row-2" := by
    intro i obj hi hne
    rcases i with _ | _ | i
    · cases hi; decide
    · exact absurd rfl hne
    · cases hi
  have hadm : Admissible noText {} mixed 0 := by
    refine ⟨⟨"a", "hi"⟩, rfl, ⟨by decide, by decide, by decide⟩, fun _ i hi => ?_⟩
    omega
  exact (reasonRow_rejected (by simp [PromptItems.empty]) hr hs).mp (h mixed 1 _ hr hs) 0 hadm rfl

end BatchSystem.Ingest
