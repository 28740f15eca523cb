import BatchSystem.Ingest.Ingestor

/-!
# Which elements are accepted, and which of them are kept

* `accepted_iff`: an element is accepted if it is a well-formed item whose id
  no earlier item has (when duplicates are rejected). Malformed elements do not count: their ids are not in
  the set of seen ids.
* `ingest_rows`: the rows an ingest adds are the first ones for each id, in the
  order of the `bulk_insert` calls and, inside a call, prompts before failures.
* `accepted_kept_iff`: so an accepted element is lost exactly when a malformed
  element with its id went out with an earlier call.
-/
namespace BatchSystem.Ingest

open BatchSystem.Core Domain Queue Service PromptItems

variable {text : Json → String} {settings : Settings}

/-- The id under which an element is reported. -/
def elementId (text : Json → String) (obj : Json) (n : Nat) : String :=
  match toItem text obj n with
  | (some item, _) => item.externalId
  | (none, externalId) => orRowName externalId n

/-- Element `k`, counted from 0, as an item; `none` when it is malformed. -/
def itemAt (text : Json → String) (elements : List Json) (k : Nat) : Option PromptItem :=
  elements[k]?.bind fun obj => (toItem text obj (k + 1)).1

/-- The ingest counts element `k` as accepted, and `item` is what it read. -/
def Accepted (text : Json → String) (settings : Settings) (elements : List Json) (k : Nat)
    (item : PromptItem) : Prop :=
  (entries text (buildValidationPipeline settings) elements)[k]? = some (.accepted item)

/-! ## One element -/

theorem entryOf_externalId (rules : List ValidationRule) (n : Nat) (obj : Json)
    (ctx : ValidationContext) :
    (entryOf text rules n obj ctx).1.externalId = elementId text obj n := by
  unfold entryOf elementId
  rcases toItem text obj n with ⟨_ | item, e⟩
  · rfl
  · simp only; split <;> rfl

theorem entryOf_accepted {n : Nat} {obj : Json} {ctx : ValidationContext} {item : PromptItem} :
    (entryOf text (buildValidationPipeline settings) n obj ctx).1 = .accepted item ↔
      (toItem text obj n).1 = some item ∧ WellFormed settings item ∧
        (settings.rejectDuplicateIds = true → item.externalId ∉ ctx.seenIds) := by
  unfold entryOf
  rcases toItem text obj n with ⟨_ | it, e⟩
  · simp
  · have hok := @validateItem_ok settings it ctx
    simp only [Option.some.injEq]
    split
    · rename_i h
      simp only [Entry.accepted.injEq]
      constructor
      · rintro rfl; exact ⟨rfl, hok.mp h⟩
      · exact fun h => h.1
    · rename_i h
      refine ⟨(fun he => nomatch he), ?_⟩
      rintro ⟨rfl, hw⟩
      exact absurd (hok.mpr hw) h

/-- Only items enter the set of seen ids, and only under duplicate rejection. -/
theorem entryOf_seen (n : Nat) (obj : Json) (ctx : ValidationContext) (x : String) :
    x ∈ (entryOf text (buildValidationPipeline settings) n obj ctx).2.seenIds ↔
      x ∈ ctx.seenIds ∨ (settings.rejectDuplicateIds = true ∧
        ∃ item, (toItem text obj n).1 = some item ∧ item.externalId = x) := by
  unfold entryOf
  rcases toItem text obj n with ⟨_ | it, e⟩
  · simp
  · have hs := @validateItem_seen settings it ctx x
    simp only [Option.some.injEq, exists_eq_left']
    split <;> rw [hs, eq_comm (a := x)]

/-! ## All elements -/

variable (text settings) in
/-- The entry at index `k`, and the ids seen in the context in which it was
made. -/
theorem entriesFrom_get {n : Nat} (ctx : ValidationContext) {objs : List Json} {k : Nat}
    {obj : Json} (hk : objs[k]? = some obj) :
    ∃ ctx', (entriesFrom text (buildValidationPipeline settings) n ctx objs)[k]? =
        some (entryOf text (buildValidationPipeline settings) (n + k + 1) obj ctx').1 ∧
      ∀ x, x ∈ ctx'.seenIds ↔ x ∈ ctx.seenIds ∨ (settings.rejectDuplicateIds = true ∧
        ∃ i < k, ∃ o ∈ objs[i]?, ∃ item,
          (toItem text o (n + i + 1)).1 = some item ∧ item.externalId = x) := by
  induction objs generalizing n ctx k with
  | nil => simp at hk
  | cons o objs ih =>
    cases k with
    | zero =>
      obtain rfl : o = obj := by simpa using hk
      exact ⟨ctx, rfl, fun x => by simp⟩
    | succ k =>
      obtain ⟨ctx', he, hs⟩ := ih (n := n + 1)
        (entryOf text (buildValidationPipeline settings) (n + 1) o ctx).2
        (by simpa using hk)
      refine ⟨ctx', by rw [show n + (k + 1) + 1 = n + 1 + k + 1 by omega, ← he]; rfl, fun x => ?_⟩
      rw [hs, entryOf_seen, or_assoc, ← and_or_left]
      refine or_congr_right (and_congr_right fun _ => ?_)
      constructor
      · rintro (h | ⟨i, hi, p, hp, h⟩)
        · exact ⟨0, by omega, o, rfl, h⟩
        · exact ⟨i + 1, by omega, p, hp, by rwa [show n + (i + 1) + 1 = n + 1 + i + 1 by omega]⟩
      · rintro ⟨i, hi, p, hp, h⟩
        cases i with
        | zero =>
          obtain rfl : o = p := by simpa using hp
          exact .inl h
        | succ i =>
          exact .inr ⟨i, by omega, p, hp, by rwa [show n + (i + 1) + 1 = n + 1 + i + 1 by omega] at h⟩

variable (text settings) in
theorem entries_get {elements : List Json} {k : Nat} {obj : Json} (hk : elements[k]? = some obj) :
    ∃ ctx, (entries text (buildValidationPipeline settings) elements)[k]? =
        some (entryOf text (buildValidationPipeline settings) (k + 1) obj ctx).1 ∧
      ∀ x, x ∈ ctx.seenIds ↔ settings.rejectDuplicateIds = true ∧
        ∃ i < k, ∃ item, itemAt text elements i = some item ∧ item.externalId = x := by
  obtain ⟨ctx, he, hs⟩ := entriesFrom_get text settings (n := 0) {} hk
  rw [Nat.zero_add] at he
  refine ⟨ctx, he, fun x => ?_⟩
  rw [hs]
  simp only [itemAt, Option.bind_eq_some_iff, Nat.zero_add, List.not_mem_nil, false_or,
    Option.mem_def]
  refine and_congr_right fun _ => ?_
  constructor
  · rintro ⟨i, hi, o, ho, item, h1, h2⟩
    exact ⟨i, hi, item, ⟨o, ho, h1⟩, h2⟩
  · rintro ⟨i, hi, item, ⟨o, ho, h1⟩, h2⟩
    exact ⟨i, hi, o, ho, item, h1, h2⟩

theorem exists_element {rules : List ValidationRule} {elements : List Json} {k : Nat} {e : Entry}
    (he : (entries text rules elements)[k]? = some e) : ∃ obj, elements[k]? = some obj := by
  have hk := (List.getElem?_eq_some_iff.mp he).1
  rw [entries, entriesFrom_length] at hk
  exact ⟨_, List.getElem?_eq_getElem hk⟩

/-- **Acceptance.** A well-formed item and, under duplicate rejection, none
before it with its id. -/
theorem accepted_iff {elements : List Json} {k : Nat} {item : PromptItem} :
    Accepted text settings elements k item ↔
      itemAt text elements k = some item ∧ WellFormed settings item ∧
        (settings.rejectDuplicateIds = true → ∀ i < k, ∀ other,
          itemAt text elements i = some other → other.externalId ≠ item.externalId) := by
  unfold Accepted
  cases hk : elements[k]? with
  | none =>
    constructor
    · intro he
      obtain ⟨obj, ho⟩ := exists_element he
      rw [hk] at ho; cases ho
    · rintro ⟨h, -⟩
      simp [itemAt, hk] at h
  | some obj =>
    obtain ⟨ctx, he, hs⟩ := entries_get text settings hk
    have hseen : (settings.rejectDuplicateIds = true → item.externalId ∉ ctx.seenIds) ↔
        (settings.rejectDuplicateIds = true → ∀ i < k, ∀ other,
          itemAt text elements i = some other → other.externalId ≠ item.externalId) := by
      refine forall_congr' fun hd => ?_
      rw [hs]; push Not
      exact ⟨fun h => h hd, fun h _ => h⟩
    rw [he, Option.some.injEq, entryOf_accepted, hseen, itemAt, hk, Option.bind_some]

/-- The id of an item is the one its element is reported under. -/
theorem elementId_of_item {obj : Json} {n : Nat} {item : PromptItem}
    (h : (toItem text obj n).1 = some item) : elementId text obj n = item.externalId := by
  unfold elementId
  rcases ht : toItem text obj n with ⟨_ | it, x⟩
  · rw [ht] at h; cases h
  · rw [ht] at h; cases h; rfl

/-- An element before an accepted one with the same id is malformed. -/
theorem malformed_before (hd : settings.rejectDuplicateIds = true) {elements : List Json}
    {i k : Nat} {item : PromptItem} {e : Entry} (ha : Accepted text settings elements k item)
    (hik : i < k) (he : (entries text (buildValidationPipeline settings) elements)[i]? = some e)
    (hid : e.externalId = item.externalId) :
    ∃ obj, elements[i]? = some obj ∧ (toItem text obj (i + 1)).1 = none ∧
      elementId text obj (i + 1) = item.externalId := by
  obtain ⟨obj, ho⟩ := exists_element he
  obtain ⟨ctx, hg, -⟩ := entries_get text settings ho
  obtain rfl := Option.some.inj (hg.symm.trans he)
  rw [entryOf_externalId] at hid
  refine ⟨obj, ho, ?_, hid⟩
  cases hm : (toItem text obj (i + 1)).1 with
  | none => rfl
  | some other =>
    have ho' : itemAt text elements i = some other := by rw [itemAt, ho, Option.bind_some, hm]
    exact absurd ((elementId_of_item hm).symm.trans hid) ((accepted_iff.mp ha).2.2 hd i hik other ho')

/-! ## The rows of an ingest -/

/-- The candidate rows of a list of `bulk_insert` calls. -/
def candidates (job : JobId) (bs : List (List Entry)) : List ItemRow :=
  bs.flatMap fun es => insertRows job (batch es).1 (batch es).2

theorem mem_batch_items {es : List Entry} {item : PromptItem} :
    item ∈ (batch es).1 ↔ .accepted item ∈ es := by
  simp only [batch, List.mem_filterMap]
  constructor
  · rintro ⟨e, he, hi⟩
    cases e with
    | accepted it => cases hi; exact he
    | rejected fr => cases hi
  · exact fun h => ⟨_, h, rfl⟩

theorem mem_batch_failed {es : List Entry} {fr : ResultRecord} :
    fr ∈ (batch es).2 ↔ .rejected fr ∈ es := by
  simp only [batch, List.mem_filterMap]
  constructor
  · rintro ⟨e, he, hi⟩
    cases e with
    | accepted it => cases hi
    | rejected f => cases hi; exact he
  · exact fun h => ⟨_, h, rfl⟩

/-- Every candidate comes from an entry, and is pending only if that was
accepted. -/
theorem mem_candidates {job : JobId} {bs : List (List Entry)} {x : ItemRow}
    (h : x ∈ candidates job bs) : ∃ e ∈ bs.flatten, x.key = (job, e.externalId) ∧
      (x.status = .pending → ∃ item, e = .accepted item) := by
  simp only [candidates, List.mem_flatMap, insertRows, List.mem_append, List.mem_map] at h
  obtain ⟨es, hes, ⟨item, hi, rfl⟩ | ⟨fr, hf, rfl⟩⟩ := h
  · exact ⟨_, List.mem_flatten.mpr ⟨es, hes, mem_batch_items.mp hi⟩, rfl, fun _ => ⟨item, rfl⟩⟩
  · exact ⟨_, List.mem_flatten.mpr ⟨es, hes, mem_batch_failed.mp hf⟩, rfl, fun hp => by cases hp⟩

theorem candidates_key (job : JobId) {bs : List (List Entry)} {e : Entry}
    (h : e ∈ bs.flatten) : (job, e.externalId) ∈ (candidates job bs).map ItemRow.key := by
  obtain ⟨es, hes, he⟩ := List.mem_flatten.mp h
  rw [List.mem_map]
  cases e with
  | accepted item =>
    exact ⟨pendingRow job item, List.mem_flatMap.mpr ⟨es, hes,
      List.mem_append_left _ (List.mem_map_of_mem (mem_batch_items.mpr he))⟩, rfl⟩
  | rejected fr =>
    exact ⟨failedRow job (batch es).1.isEmpty fr, List.mem_flatMap.mpr ⟨es, hes,
      List.mem_append_right _ (List.mem_map_of_mem (mem_batch_failed.mpr he))⟩, rfl⟩

theorem insertRows_content (job : JobId) (items : List PromptItem) (failed : List ResultRecord) :
    (insertRows job items failed).map ItemRow.content = insertRows job items failed := by
  simp only [insertRows, List.map_append, List.map_map]; rfl

/-- Up to ids, the calls add the first candidate for each new key. -/
theorem foldl_bulkInsert_rows (job : JobId) (bs : List (List Entry)) (t : PromptItems) :
    (((bs.map batch).foldl (fun t b => (bulkInsert t job b.1 b.2).1) t).rows).map ItemRow.content =
      t.rows.map ItemRow.content ++
        firstWins ItemRow.key (t.rows.map ItemRow.key) (candidates job bs) := by
  induction bs generalizing t with
  | nil => simp [candidates, firstWins]
  | cons es bs ih =>
    have hrows := bulkInsert_rows t job (batch es).1 (batch es).2
    have hfresh := t.freshRows_content (insertRows job (batch es).1 (batch es).2)
    rw [insertRows_content] at hfresh
    have hkeys : ∀ k, k ∈ (bulkInsert t job (batch es).1 (batch es).2).1.rows.map ItemRow.key ↔
        k ∈ (insertRows job (batch es).1 (batch es).2).map ItemRow.key ++
          t.rows.map ItemRow.key := by
      intro k
      have hck : ∀ rows : List ItemRow, rows.map ItemRow.key =
          (rows.map ItemRow.content).map ItemRow.key := by simp [Function.comp_def]
      rw [hrows, List.map_append, hck (t.freshRows _), hfresh, List.mem_append, List.mem_append,
        mem_firstWins_keys]
      tauto
    have hc : candidates job (es :: bs) =
        insertRows job (batch es).1 (batch es).2 ++ candidates job bs := rfl
    rw [List.map_cons, List.foldl_cons, ih, firstWins_congr fun x _ => hkeys x.key, hrows,
      List.map_append, hfresh, List.append_assoc, hc, firstWins_append]

/-- The rows of an ingest into a job without rows, from its calls. -/
theorem ingest_rows_of_calls {rules : List ValidationRule} {elements : List Json}
    {bs : List (List Entry)} (hf : (ingestLoop text rules elements).flushed = bs.map batch)
    (jobs : Jobs) {t : PromptItems} {job : JobId} (ht : ∀ r ∈ t.rows, r.jobId ≠ job) :
    ((ingest text rules t jobs job elements).1.rows).map ItemRow.content =
      t.rows.map ItemRow.content ++ firstWins ItemRow.key [] (candidates job bs) := by
  rw [ingest, hf, foldl_bulkInsert_rows]
  congr 1
  refine firstWins_congr fun x hx => iff_of_false ?_ (by simp)
  obtain ⟨e, -, hk, -⟩ := mem_candidates hx
  rw [hk, List.mem_map]
  rintro ⟨r, hr, he⟩
  exact ht r hr (congrArg Prod.fst he)

/-- **The rows of an ingest** into a job without rows. -/
theorem ingest_rows (text : Json → String) (rules : List ValidationRule) (elements : List Json)
    (jobs : Jobs) {t : PromptItems} {job : JobId} (ht : ∀ r ∈ t.rows, r.jobId ≠ job) :
    ∃ bs, Blocks insertBatch bs (entries text rules elements) ∧
      ((ingest text rules t jobs job elements).1.rows).map ItemRow.content =
        t.rows.map ItemRow.content ++ firstWins ItemRow.key [] (candidates job bs) := by
  obtain ⟨bs, hb, hf⟩ := ingestLoop_batches text rules elements
  exact ⟨bs, hb, ingest_rows_of_calls hf jobs ht⟩

/-! ## Headline -/

/-- The table has the item's own pending row. -/
def PendingRow (t : PromptItems) (job : JobId) (item : PromptItem) : Prop :=
  ∃ r ∈ t.rows, r.jobId = job ∧ r.externalId = item.externalId ∧ r.prompt = some item.prompt ∧
    r.status = .pending

/-- A malformed element before an accepted one with the same id goes out in
the same `bulk_insert`. -/
def SameBatch (text : Json → String) (settings : Settings) (elements : List Json) : Prop :=
  ∀ i k obj item, Accepted text settings elements k item → i < k → elements[i]? = some obj →
    (toItem text obj (i + 1)).1 = none → elementId text obj (i + 1) = item.externalId →
    i / insertBatch = k / insertBatch

section kept
variable {elements : List Json} {t : PromptItems} {jobs : Jobs} {job : JobId} {k : Nat}
  {item : PromptItem}

/-- Where an accepted element travels: what comes before it in the calls. -/
theorem accepted_split {bs : List (List Entry)}
    (hb : Blocks insertBatch bs (entries text (buildValidationPipeline settings) elements))
    (ha : Accepted text settings elements k item) :
    ∃ pre c post, bs = pre ++ c :: post ∧
      pre.flatten = (entries text (buildValidationPipeline settings) elements).take
        (insertBatch * (k / insertBatch)) ∧
      ∃ a b, c = a ++ .accepted item :: b ∧
        pre.flatten ++ a = (entries text (buildValidationPipeline settings) elements).take k := by
  obtain ⟨pre, c, post, hbs, hpre, a, b, hc, hl⟩ := hb.split_at (by decide) ha
  refine ⟨pre, c, post, hbs, hpre, a, b, hc, ?_⟩
  have hk := (List.getElem?_eq_some_iff.mp ha).1
  have hall := hb.flatten_eq
  rw [hbs, List.flatten_append, List.flatten_cons, hc] at hall
  have hlen : (pre.flatten ++ a).length = k := by
    rw [List.length_append, hpre, List.length_take]; omega
  have hassoc : pre.flatten ++ (a ++ .accepted item :: b ++ post.flatten) =
      (pre.flatten ++ a) ++ .accepted item :: (b ++ post.flatten) := by
    simp only [List.append_assoc, List.cons_append]
  rw [← hall, hassoc, ← hlen, List.take_left]

/-- No earlier candidate has the key of an accepted item: its row goes in. -/
theorem pendingRow_of_sameBatch (hd : settings.rejectDuplicateIds = true)
    (ht : ∀ r ∈ t.rows, r.jobId ≠ job) (hs : SameBatch text settings elements)
    (ha : Accepted text settings elements k item) :
    PendingRow (ingest text (buildValidationPipeline settings) t jobs job elements).1 job item := by
  obtain ⟨bs, hb, hrows⟩ := ingest_rows text (buildValidationPipeline settings) elements jobs ht
  obtain ⟨pre, c, post, rfl, hpre, a, b, rfl, htake⟩ := accepted_split hb ha
  -- an entry of an earlier call, or an accepted one of this call, has another id
  have hother : ∀ e ∈ pre.flatten ++ a, (e ∈ pre.flatten ∨ ∃ it, e = .accepted it) →
      e.externalId ≠ item.externalId := by
    intro e he hor hid
    rw [htake, List.mem_take_iff_getElem] at he
    obtain ⟨i, hi, hget⟩ := he
    have hget' := List.getElem?_eq_some_iff.mpr ⟨_, hget⟩
    obtain ⟨obj, ho, hm, hmid⟩ := malformed_before hd ha (by omega) hget' hid
    rcases hor with hp | ⟨it, rfl⟩
    · rw [hpre, List.mem_take_iff_getElem] at hp
      obtain ⟨j, hj, hgetj⟩ := hp
      have hgetj' := List.getElem?_eq_some_iff.mpr ⟨_, hgetj⟩
      have hjk : j < k := by
        have := Nat.mul_div_le k insertBatch
        omega
      obtain ⟨obj', ho', hm', hmid'⟩ := malformed_before hd ha hjk hgetj' hid
      have hjb := hs j k obj' item ha hjk ho' hm' hmid'
      have hlt : j / insertBatch < k / insertBatch :=
        Nat.div_lt_of_lt_mul (by omega)
      omega
    · obtain ⟨ctx, hg, -⟩ := entries_get text settings ho
      have hacc := entryOf_accepted.mp (Option.some.inj (hg.symm.trans hget'))
      rw [hm] at hacc
      cases hacc.1
  have hmem : pendingRow job item ∈ firstWins ItemRow.key []
      (candidates job (pre ++ (a ++ .accepted item :: b) :: post)) := by
    rw [mem_firstWins]
    refine ⟨by simp, candidates job pre ++ (batch a).1.map (pendingRow job), ?_, ?_, ?_⟩
    · exact (batch b).1.map (pendingRow job) ++
        (batch (a ++ .accepted item :: b)).2.map
          (failedRow job (batch (a ++ .accepted item :: b)).1.isEmpty) ++ candidates job post
    · simp [candidates, insertRows, batch, Entry.item?, List.filterMap_cons]
    · intro hk
      rw [List.map_append, List.mem_append, List.mem_map, List.mem_map] at hk
      rcases hk with ⟨x, hx, hxk⟩ | ⟨x, hx, hxk⟩
      · obtain ⟨e, he, hkey, -⟩ := mem_candidates hx
        rw [hkey] at hxk
        exact hother e (List.mem_append_left _ he) (.inl he) (congrArg Prod.snd hxk)
      · obtain ⟨it, hit, rfl⟩ := List.mem_map.mp hx
        exact hother (.accepted it) (List.mem_append_right _ (mem_batch_items.mp hit))
          (.inr ⟨it, rfl⟩) (congrArg Prod.snd hxk)
  have hin : pendingRow job item ∈ ((ingest text (buildValidationPipeline settings) t jobs job
      elements).1.rows).map ItemRow.content := by
    rw [hrows]; exact List.mem_append_right _ hmem
  obtain ⟨r, hr, he⟩ := List.mem_map.mp hin
  refine ⟨r, hr, ?_⟩
  have hf : ∀ {β : Type} (f : ItemRow → β), f r.content = f (pendingRow job item) := fun f => by
    rw [he]
  exact ⟨hf (·.jobId), hf (·.externalId), hf (·.prompt), hf (·.status)⟩

/-- A malformed element with the id, sent in an earlier call, takes the row. -/
theorem lost_of_earlier_batch (hd : settings.rejectDuplicateIds = true)
    (ht : ∀ r ∈ t.rows, r.jobId ≠ job) {i : Nat} {obj : Json}
    (ha : Accepted text settings elements k item) (hi : elements[i]? = some obj)
    (hid : elementId text obj (i + 1) = item.externalId)
    (hlt : i / insertBatch < k / insertBatch) :
    ¬ PendingRow (ingest text (buildValidationPipeline settings) t jobs job elements).1 job
      item := by
  rintro ⟨r, hr, hj, he, -, hst⟩
  obtain ⟨bs, hb, hrows⟩ := ingest_rows text (buildValidationPipeline settings) elements jobs ht
  obtain ⟨pre, c, post, rfl, hpre, -⟩ := accepted_split hb ha
  obtain ⟨ctx, hget, -⟩ := entries_get text settings hi
  -- the malformed element's entry is in an earlier call
  have hmem : (entryOf text (buildValidationPipeline settings) (i + 1) obj ctx).1 ∈
      pre.flatten := by
    obtain ⟨hil, hge⟩ := List.getElem?_eq_some_iff.mp hget
    rw [hpre, List.mem_take_iff_getElem]
    have hlt' : i < insertBatch * (k / insertBatch) := by
      have h1 := Nat.div_add_mod i insertBatch
      have h2 := Nat.mod_lt i (show 0 < insertBatch by decide)
      have h3 : insertBatch * (i / insertBatch + 1) ≤ insertBatch * (k / insertBatch) :=
        Nat.mul_le_mul_left _ hlt
      rw [Nat.mul_succ] at h3
      omega
    exact ⟨i, by omega, hge⟩
  have hkey := candidates_key job hmem
  rw [entryOf_externalId, hid] at hkey
  have hin : r.content ∈ t.rows.map ItemRow.content ++
      firstWins ItemRow.key [] (candidates job (pre ++ c :: post)) := by
    rw [← hrows]; exact List.mem_map_of_mem hr
  have hrk : r.content.key = (job, item.externalId) := by
    rw [ItemRow.content_key, ItemRow.key, hj, he]
  have hcand : candidates job (pre ++ c :: post) =
      candidates job pre ++ candidates job (c :: post) := by simp [candidates]
  rcases List.mem_append.mp hin with hin | hin
  · obtain ⟨r', hr', hc⟩ := List.mem_map.mp hin
    exact ht r' hr' ((congrArg ItemRow.jobId hc).trans hj)
  · rw [hcand, firstWins_append, List.mem_append] at hin
    rcases hin with hin | hin
    · -- a pending row of an earlier call comes from an accepted element
      obtain ⟨e, hep, hk, hacc⟩ := mem_candidates (firstWins_subset hin)
      obtain ⟨it, rfl⟩ := hacc hst
      rw [hpre, List.mem_take_iff_getElem] at hep
      obtain ⟨j, hj, hgj⟩ := hep
      have hgj' := List.getElem?_eq_some_iff.mpr ⟨_, hgj⟩
      have hjk : j < k := by
        have := Nat.mul_div_le k insertBatch
        omega
      rw [hrk] at hk
      obtain ⟨obj', ho', hm', -⟩ := malformed_before hd ha hjk hgj' (congrArg Prod.snd hk).symm
      obtain ⟨ctx', hg', -⟩ := entries_get text settings ho'
      have h := entryOf_accepted.mp (Option.some.inj (hg'.symm.trans hgj'))
      rw [hm'] at h
      cases h.1
    · exact (mem_firstWins.mp hin).1 (by rw [hrk, List.append_nil]; exact hkey)

end kept

/-- **Accepted prompts are kept**, exactly when no accepted element has a
malformed one with its id in an earlier `bulk_insert`. -/
theorem accepted_kept_iff (hd : settings.rejectDuplicateIds = true) {t : PromptItems} {jobs : Jobs}
    {job : JobId} (ht : ∀ r ∈ t.rows, r.jobId ≠ job) (elements : List Json) :
    (∀ k item, Accepted text settings elements k item →
      PendingRow (ingest text (buildValidationPipeline settings) t jobs job elements).1 job item) ↔
      SameBatch text settings elements := by
  constructor
  · intro h i k obj item ha hik hi _ hid
    by_contra hne
    have hle : i / insertBatch ≤ k / insertBatch := Nat.div_le_div_right (Nat.le_of_lt hik)
    exact lost_of_earlier_batch hd ht ha hi hid (by omega) (h k item ha)
  · exact fun hs k item ha => pendingRow_of_sameBatch hd ht hs ha

/-! ## Non-vacuity -/

/-- No decimal, list or object is an id here. -/
def noText : Json → String := fun _ => ""

/-- An item whose explicit id is the generated one of the first element. -/
def rowOne : Json := .obj [("id", .str "row-1"), ("prompt", .str "hi")]

/-- In one call the prompt comes before the failure. -/
theorem accepted_kept_pair : Accepted noText {} [.null, rowOne] 1 ⟨"row-1", "hi"⟩ ∧
    PendingRow (ingest noText (buildValidationPipeline {}) .empty .empty "j" [.null, rowOne]).1
      "j" ⟨"row-1", "hi"⟩ := by
  have ha : Accepted noText {} [.null, rowOne] 1 ⟨"row-1", "hi"⟩ := rfl
  refine ⟨ha, (accepted_kept_iff rfl (by simp [PromptItems.empty]) _).mpr ?_ 1 _ ha⟩
  intro i k obj item ha hik _ _ _
  have hk := (List.getElem?_eq_some_iff.mp ha).1
  rw [entries, entriesFrom_length] at hk
  rw [Nat.div_eq_of_lt (by simp only [insertBatch, List.length_cons, List.length_nil] at hk ⊢; omega),
    Nat.div_eq_of_lt (by simp only [insertBatch, List.length_cons, List.length_nil] at hk ⊢; omega)]

/-- Five hundred elements that are no objects, then `rowOne`: the row of
`row-1` went out as failed with the first call. -/
def lateRowOne : List Json := List.replicate insertBatch .null ++ [rowOne]

theorem lateRowOne_get {i : Nat} (hi : i < insertBatch) : lateRowOne[i]? = some .null := by
  rw [lateRowOne, List.getElem?_append_left (by rwa [List.length_replicate]),
    List.getElem?_replicate, if_pos hi]

theorem accepted_lost : ¬ ∀ (elements : List Json) (k : Nat) (item : PromptItem),
    Accepted noText {} elements k item →
      PendingRow (ingest noText (buildValidationPipeline {}) .empty .empty "j" elements).1 "j"
        item := by
  intro h
  have ha : Accepted noText {} lateRowOne insertBatch ⟨"row-1", "hi"⟩ := by
    refine accepted_iff.mpr ⟨?_, ⟨by decide, by decide, by decide⟩, fun _ i hi other ho => ?_⟩
    · have hget : lateRowOne[insertBatch]? = some rowOne := by
        rw [lateRowOne, List.getElem?_append_right (by rw [List.length_replicate]),
          List.length_replicate, Nat.sub_self]
        rfl
      rw [itemAt, hget]; rfl
    · rw [itemAt, lateRowOne_get hi] at ho; cases ho
  have hfirst : lateRowOne[0]? = some .null := lateRowOne_get (by decide)
  exact lost_of_earlier_batch rfl (by simp [PromptItems.empty]) ha hfirst (by decide) (by decide)
    (h lateRowOne insertBatch _ ha)

end BatchSystem.Ingest
