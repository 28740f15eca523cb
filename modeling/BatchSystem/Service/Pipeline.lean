import BatchSystem.Engine.Clients
import BatchSystem.Service.Replay
import BatchSystem.Service.Resume

/-!
# From the file to the results

One `ingest` of a file into a new job, then one `BatchEngine.run` with any
client. If the elements are reported under distinct ids, the table, the counts
of `get_status` and the store say of each element what its text and the answers
to its prompt determine (`pipeline`), whatever the schedule.

* `entryResult`: the record of an element, as a function of the answers.
* `candidates_perm`: the `bulk_insert` calls of a file are its elements.
* `final_shown`: the rows at the end, as a function of the rows before the run.
-/
namespace BatchSystem.Service

open BatchSystem.Core Domain Queue Storage Engine Ingest

/-! ## What a file means -/

/-- The record of an element; the client's answers are by external id. -/
def entryResult (settings : Settings) (answers : String → Nat → Outcome) : Entry → ResultRecord
  | .accepted item =>
    noLatency (processRow settings ⟨0, item.externalId, item.prompt, 1⟩
      (answers item.externalId) 0).1
  | .rejected fr => fr

/-- What a row says of its element. A rejected one has no prompt, and its reason
may be missing. -/
def shown (r : ItemRow) : String × ItemStatus × Option (String × Option String × Int) :=
  (r.externalId, r.status, r.prompt.map fun p => (p, r.error, r.attempts))

def entryShown (settings : Settings) (answers : String → Nat → Outcome) (en : Entry) :
    String × ItemStatus × Option (String × Option String × Int) :=
  let res := entryResult settings answers en
  match en with
  | .accepted item => (item.externalId, res.status, some (item.prompt, res.error, res.attempts))
  | .rejected fr => (fr.externalId, .failed, none)

section row
variable {settings : Settings} {item item' : ClaimedItem} {client : Nat → Outcome}

/-- The loop looks at the answers, not at the item. -/
theorem attemptLoop_item (attempts : List Nat) {st st' : RowState} (ha : st.attempt = st'.attempt)
    (he : st.lastError = st'.lastError) :
    (attemptLoop settings item client attempts st).1 =
      (attemptLoop settings item' client attempts st').1 ∧
    (attemptLoop settings item client attempts st).2.attempt =
      (attemptLoop settings item' client attempts st').2.attempt ∧
    (attemptLoop settings item client attempts st).2.lastError =
      (attemptLoop settings item' client attempts st').2.lastError := by
  induction attempts generalizing st st' with
  | nil => exact ⟨rfl, ha, he⟩
  | cons n rest ih =>
    simp only [attemptLoop]
    cases client n with
    | success | permanent | unexpected => exact ⟨rfl, rfl, by first | exact he | rfl⟩
    | retryable msg =>
      dsimp only
      split <;> exact ih rfl rfl

theorem processRow_item (h : item.externalId = item'.externalId) (latencyMs : Int) :
    (processRow settings item client latencyMs).1 =
      (processRow settings item' client latencyMs).1 := by
  unfold processRow
  obtain ⟨h1, h2, h3⟩ := @attemptLoop_item settings item item' client
    (List.range settings.retryMaxAttempts) {} {} rfl rfl
  split <;> rename_i hx <;> split <;> rename_i hy <;> rw [hx, hy] at h1 h2 h3 <;> cases h1
  · simp only at h2
    simp [h, h2]
  · simp only at h2 h3
    simp [h, h2, h3]

end row

/-! ## The rows of a file -/

section file
variable {text : Json → String} {β : Type} {job : JobId}

theorem batch_perm {f : ItemRow → β} {g : Entry → β}
    (hp : ∀ item, f (pendingRow job item) = g (.accepted item)) (b : Bool)
    (hf : ∀ fr, f (failedRow job b fr) = g (.rejected fr)) (es : List Entry) :
    (((batch es).1.map (pendingRow job) ++ (batch es).2.map (failedRow job b)).map f).Perm
      (es.map g) := by
  induction es with
  | nil => exact .nil
  | cons en es ih =>
    cases en with
    | accepted item =>
      have hb : batch (.accepted item :: es) = (item :: (batch es).1, (batch es).2) := rfl
      rw [hb, List.map_cons (f := g), ← hp item]
      exact .cons _ ih
    | rejected fr =>
      have hb : batch (.rejected fr :: es) = ((batch es).1, fr :: (batch es).2) := rfl
      rw [hb, List.map_cons, List.map_cons, List.map_append, List.map_cons, hf fr]
      refine List.perm_middle.trans (.cons _ ?_)
      rwa [← List.map_append]

/-- The candidates of the calls, one for each entry. -/
theorem candidates_perm {f : ItemRow → β} {g : Entry → β}
    (hp : ∀ item, f (pendingRow job item) = g (.accepted item))
    (hf : ∀ b fr, f (failedRow job b fr) = g (.rejected fr)) (bs : List (List Entry)) :
    ((candidates job bs).map f).Perm (bs.flatten.map g) := by
  induction bs with
  | nil => exact .nil
  | cons es bs ih =>
    have hc : candidates job (es :: bs) =
        insertRows job (batch es).1 (batch es).2 ++ candidates job bs := rfl
    rw [hc, List.map_append, List.flatten_cons, List.map_append]
    exact (batch_perm hp _ (hf _) es).append ih

/-- The rows of a new job after the ingest of a file with distinct ids. -/
theorem ingested_rows (rules : List ValidationRule) {elements : List Json}
    (hn : (fileIds text elements).Nodup) (jobs : Jobs) {t : PromptItems}
    (ht : ∀ r ∈ t.rows, r.jobId ≠ job) :
    ∃ bs, bs.flatten = entries text rules elements ∧
      (jobRows (ingest text rules t jobs job elements).1 job).map ItemRow.content =
        candidates job bs := by
  obtain ⟨bs, hb, hrows⟩ := ingest_rows text rules elements jobs ht
  refine ⟨bs, hb.flatten_eq, ?_⟩
  have hids : (entries text rules elements).map Entry.externalId = fileIds text elements := by
    rw [entries, entriesFrom_ids, fileIds]
    simp only [Nat.zero_add]
  have hkeys : ((candidates job bs).map ItemRow.key).Nodup := by
    have hp : ((candidates job bs).map ItemRow.key).Perm
        (bs.flatten.map fun en => (job, en.externalId)) :=
      candidates_perm (fun _ => rfl) (fun _ _ => rfl) bs
    have hmap : (entries text rules elements).map (fun en => (job, en.externalId)) =
        (fileIds text elements).map fun x => (job, x) := by
      rw [← hids, List.map_map]
      rfl
    rw [hp.nodup_iff, hb.flatten_eq, hmap]
    exact hn.map fun x y h => congrArg Prod.snd h
  rw [firstWins_eq_self (fun _ _ => List.not_mem_nil) hkeys] at hrows
  have hfilter : ∀ rows : List ItemRow, (rows.filter fun r => r.jobId = job).map ItemRow.content =
      (rows.map ItemRow.content).filter fun r => r.jobId = job := by
    intro rows
    rw [List.filter_map]
    rfl
  rw [jobRows, hfilter, hrows, List.filter_append, List.filter_eq_nil_iff.mpr, List.nil_append,
    List.filter_eq_self.mpr]
  · intro r hr
    obtain ⟨es, -, hr⟩ := List.mem_flatMap.mp hr
    exact decide_eq_true (insertRows_job hr)
  · intro r hr
    obtain ⟨r₀, hr₀, rfl⟩ := List.mem_map.mp hr
    exact fun h => ht r₀ hr₀ (of_decide_eq_true h)

end file

/-! ## The rows of a run -/

/-- What a row will say at the end of a run. -/
def expected (settings : Settings) (answers : String → Nat → Outcome) (r : ItemRow) :
    String × ItemStatus × Option (String × Option String × Int) :=
  if r.status = .pending then
    entryShown settings answers (.accepted ⟨r.externalId, r.prompt.getD ""⟩)
  else shown r

theorem filter_map_forall₂ {α β γ : Type} {R : α → β → Prop} {l : List α} {m : List β}
    {p : α → Bool} {q : β → Bool} {f : α → γ} {g : β → γ} (h : List.Forall₂ R l m)
    (hpq : ∀ a b, R a b → p a = q b) (hfg : ∀ a b, R a b → p a = true → f a = g b) :
    (l.filter p).map f = (m.filter q).map g := by
  induction h with
  | nil => rfl
  | @cons a b l m hr h ih =>
    rw [List.filter_cons, List.filter_cons, ← hpq a b hr]
    split
    · rename_i hp
      rw [List.map_cons, List.map_cons, hfg a b hr hp, ih]
    · exact ih

section run
variable {e : EngineRun} {s₁ : PState} {s : RunState} {answers : String → Nat → Outcome}

/-- The answers to the rows of the job, by external id. -/
def AnswersById (e : EngineRun) (p : PState) (answers : String → Nat → Outcome) : Prop :=
  ∀ r ∈ jobRows p.items e.job, e.client r.id = answers r.externalId

theorem exists_answersById (e : EngineRun) (p : PState) : ∃ answers, AnswersById e p answers := by
  refine ⟨fun x => ((jobRows p.items e.job).find? fun r => r.externalId = x).elim
    (fun _ => .success "") fun r => e.client r.id, fun r hr => ?_⟩
  obtain ⟨r', hf⟩ : ∃ r', (jobRows p.items e.job).find? (fun r' => r'.externalId = r.externalId) =
      some r' := Option.isSome_iff_exists.mp (List.find?_isSome.mpr ⟨r, hr, by simp⟩)
  obtain ⟨hr', he⟩ : r' ∈ jobRows p.items e.job ∧ r'.externalId = r.externalId :=
    ⟨List.mem_of_find?_eq_some hf, by simpa using List.find?_some hf⟩
  obtain ⟨hmem, hj⟩ := List.mem_filter.mp hr
  obtain ⟨hmem', hj'⟩ := List.mem_filter.mp hr'
  have heq : r' = r := p.items.key_inj hmem' hmem
    ((of_decide_eq_true hj').trans (of_decide_eq_true hj).symm) he
  show _ = ((jobRows p.items e.job).find? fun r' => r'.externalId = r.externalId).elim _ _
  rw [hf, heq]
  rfl

theorem rowResult_entry {p : PState} (ha : AnswersById e p answers) {r : ItemRow}
    (hr : r ∈ jobRows p.items e.job) : noLatency (e.rowResult r) =
      entryResult e.settings answers (.accepted ⟨r.externalId, r.prompt.getD ""⟩) := by
  rw [EngineRun.rowResult, ha r hr, entryResult]
  refine congrArg noLatency (processRow_item ?_ 0)
  rfl

/-- The record of a coroutine, from the entry of its row. -/
theorem record_of_row (ha : AnswersById e s₁ answers) (hw : Working e s₁ s) {τ : RowTask}
    (hτ : τ ∈ s.proc.tasks) {res : ResultRecord} (hres : τ.result = some res) {r₀ : ItemRow}
    (hr₀ : r₀ ∈ jobRows s₁.items e.job) (hi : τ.item = claimedItem r₀) :
    noLatency res = entryResult e.settings answers (.accepted ⟨r₀.externalId, r₀.prompt.getD ""⟩) := by
  rw [← rowResult_entry ha hr₀, (hw.computes τ hτ).noLatency hres, hi]
  rfl

theorem final_shown (h₀ : Startable e s₁) (hl : AllLeft e s) (hb : RunBooks e s₁ s)
    (ha : AnswersById e s₁ answers) :
    (jobRows s.pool.items e.job).map shown =
      (jobRows s₁.items e.job).map (expected e.settings answers) := by
  refine (filter_map_forall₂ (forall₂_imp_mem (final_rows h₀ hl hb)
    fun r₀ hr₀ r _ h => (⟨hr₀, h⟩ : r₀ ∈ s₁.items.rows ∧ _)) (fun r₀ r h => ?_)
    fun r₀ r h hj => ?_).symm
  · obtain ⟨-, h⟩ := h
    split at h
    · obtain ⟨τ, -, res, -, -, hk, -⟩ := h
      rw [hk.2.1]
    · rw [h]
  · obtain ⟨hr₀, h⟩ := h
    unfold expected
    split at h
    · rename_i ht
      obtain ⟨τ, hτ, res, hi, hres, ⟨-, -, hx, hp⟩, hs, he, hatt⟩ := h
      have hst := (takes_iff.mp ht).2
      obtain ⟨prompt, hprompt⟩ : ∃ prompt, r₀.prompt = some prompt := by
        cases hnone : r₀.prompt with
        | some prompt => exact ⟨prompt, rfl⟩
        | none =>
          have := prompt_none h₀.reachable r₀ hr₀ hnone
          rw [hst] at this
          cases this
      have hrec := record_of_row ha hb.working hτ hres (List.mem_filter.mpr ⟨hr₀, hj⟩) hi
      rw [if_pos hst, shown, hx, hp, hs, he, hatt, hprompt]
      simp only [entryShown, Option.getD_some, Option.map_some]
      rw [hprompt, Option.getD_some] at hrec
      rw [← hrec]
      rfl
    · rename_i ht
      rw [if_neg fun hst => ht (takes_iff.mpr ⟨of_decide_eq_true hj, hst⟩), h]

end run

/-! ## Headline -/

/-- The pool after the ingest of a file. -/
def ingested (text : Json → String) (settings : Settings) (job : JobId) (elements : List Json)
    (jobs : Jobs) (s : PState) : PState :=
  { s with items := (ingest text (buildValidationPipeline settings) s.items jobs job elements).1 }

/-- The results of a job whose file has these entries. -/
structure Delivered (e : EngineRun) (answers : String → Nat → Outcome) (es : List Entry)
    (jobs : Jobs) (s₀ s : PState) : Prop where
  table : ((jobRows s.items e.job).map shown).Perm (es.map (entryShown e.settings answers))
  others : ∀ r ∈ s₀.items.rows, r ∈ s.items.rows
  status : ∀ row, jobs.get e.job = some row → jobs.getStatus s.items e.job = some
    { jobId := e.job, state := row.state, total := es.length, pending := 0, inProgress := 0,
      succeeded := es.countP fun en => (entryShown e.settings answers en).2.1 = .succeeded,
      failed := es.countP fun en => (entryShown e.settings answers en).2.1 = .failed }
  records : ∃ stored : List (ChunkId × List ResultRecord),
    s.files.Perm (s₀.files ++ stored.map fun c => wholeFile e.job c.1 c.2) ∧
      ((stored.flatMap (·.2)).map noLatency).Perm
        ((es.filterMap Entry.item?).map fun item => entryResult e.settings answers (.accepted item))

section headline
variable {text : Json → String} {e : EngineRun} {s₀ : PState} {elements : List Json} {jobs : Jobs}

theorem inserts_reachable {p : PState} (h : pool.Reachable p) (job : JobId)
    (bs : List (List PromptItem × List ResultRecord)) :
    pool.Reachable { p with items := afterInserts p.items job bs } := by
  induction bs generalizing p with
  | nil => exact h
  | cons b bs ih =>
    have hst : pool.step p (.bulkInsert job b.1 b.2)
        { p with items := (bulkInsert p.items job b.1 b.2).1 } := rfl
    exact ih (h.step hst)

theorem ingested_startable (hr : pool.Reachable s₀) (ht : ∀ r ∈ s₀.items.rows, r.jobId ≠ e.job)
    (hw : ∀ w ∈ e.workers, s₀.workers w = none)
    (hlen : e.workers.length = e.settings.workerPoolSize) (hpool : 1 ≤ e.settings.workerPoolSize)
    (hsize : 1 ≤ e.settings.chunkSize) (hn : (fileIds text elements).Nodup) :
    Startable e (ingested text e.settings e.job elements jobs s₀) := by
  refine ⟨inserts_reachable hr _ _, hw, fun r hrow hj => ?_, hlen, hpool, hsize⟩
  obtain ⟨bs, -, hrows⟩ := ingested_rows (buildValidationPipeline e.settings) hn jobs ht
  have hc : r.content ∈ candidates e.job bs := by
    rw [← hrows]
    exact List.mem_map_of_mem (List.mem_filter.mpr ⟨hrow, decide_eq_true hj⟩)
  obtain ⟨es, -, hin⟩ := List.mem_flatMap.mp hc
  have hs := (insertRows_unclaimed hin).status
  intro hcl
  rw [show r.content.status = .claimed from hcl] at hs
  rcases hs with hs | hs <;> cases hs

theorem entryShown_terminal (settings : Settings) (answers : String → Nat → Outcome) (en : Entry) :
    (entryShown settings answers en).2.1.terminal = true := by
  cases en with
  | accepted item => exact processRow_terminal settings _ _ _
  | rejected fr => rfl

/-- The counts of `get_status`, from what the rows say. -/
theorem countByStatus_shown {t : PromptItems} {job : JobId} {es : List Entry}
    {g : Entry → String × ItemStatus × Option (String × Option String × Int)}
    (h : ((jobRows t job).map shown).Perm (es.map g)) (st : ItemStatus) :
    countByStatus t job st = es.countP fun en => (g en).2.1 = st := by
  have hc := h.countP_eq fun x => decide (x.2.1 = st)
  rw [List.countP_map, List.countP_map, jobRows, List.countP_filter] at hc
  rw [countByStatus]
  refine Eq.trans (List.countP_congr fun r _ => ?_) hc
  simp only [Function.comp_apply, Bool.and_eq_true, beq_iff_eq, decide_eq_true_eq]
  exact and_comm

theorem ingested_shown (ht : ∀ r ∈ s₀.items.rows, r.jobId ≠ e.job)
    (hn : (fileIds text elements).Nodup) (answers : String → Nat → Outcome) :
    ((jobRows (ingested text e.settings e.job elements jobs s₀).items e.job).map
      (expected e.settings answers)).Perm
        ((entries text (buildValidationPipeline e.settings) elements).map
          (entryShown e.settings answers)) := by
  obtain ⟨bs, hb, hrows⟩ := ingested_rows (buildValidationPipeline e.settings) hn jobs ht
  have hcand : ((candidates e.job bs).map (expected e.settings answers)).Perm
      (bs.flatten.map (entryShown e.settings answers)) :=
    candidates_perm (fun _ => rfl) (fun _ _ => rfl) bs
  rw [← hrows, List.map_map, hb] at hcand
  exact hcand

/-- The records that the loop over the rows returns, from the entries. -/
theorem ingested_records (ht : ∀ r ∈ s₀.items.rows, r.jobId ≠ e.job)
    (hn : (fileIds text elements).Nodup) {answers : String → Nat → Outcome}
    (ha : AnswersById e (ingested text e.settings e.job elements jobs s₀) answers) :
    ((e.sequential (ingested text e.settings e.job elements jobs s₀).items.rows).2.map
      noLatency).Perm
        (((entries text (buildValidationPipeline e.settings) elements).filterMap Entry.item?).map
          fun item => entryResult e.settings answers (.accepted item)) := by
  obtain ⟨bs, hb, hrows⟩ := ingested_rows (buildValidationPipeline e.settings) hn jobs ht
  let record (r : ItemRow) : Option ResultRecord := if r.status = .pending then
    some (entryResult e.settings answers (.accepted ⟨r.externalId, r.prompt.getD ""⟩)) else none
  have hcand : ((candidates e.job bs).map record).Perm (bs.flatten.map fun en =>
      en.item?.map fun item => entryResult e.settings answers (.accepted item)) :=
    candidates_perm (fun _ => rfl) (fun _ _ => rfl) bs
  rw [← hrows, List.map_map, hb] at hcand
  have hperm := hcand.filterMap id
  rw [List.filterMap_map, List.filterMap_map] at hperm
  rw [sequential_records, List.map_map, ← List.filterMap_eq_map, List.filterMap_filter,
    List.map_filterMap]
  refine List.Perm.trans (.of_eq ?_) hperm
  rw [jobRows, List.filterMap_filter]
  refine List.filterMap_congr fun r hrow => ?_
  by_cases hj : r.jobId = e.job
  · by_cases hs : r.status = .pending
    · have hres := rowResult_entry ha (List.mem_filter.mpr ⟨hrow, decide_eq_true hj⟩)
      rw [if_pos (takes_iff.mpr ⟨hj, hs⟩), if_pos (decide_eq_true hj)]
      show some (noLatency (e.rowResult r)) = record r.content
      rw [hres]
      exact (if_pos hs).symm
    · rw [if_neg fun h => hs (takes_iff.mp h).2, if_pos (decide_eq_true hj)]
      exact (if_neg hs).symm
  · rw [if_neg fun h => hj (takes_iff.mp h).1, if_neg fun h => hj (of_decide_eq_true h)]

/-- **From the file to the results.** For every file whose elements are reported
under distinct ids, ingested into a new job that a run with any client works on,
while no lease runs out under a living worker: some fixed answers, one for each
attempt at each external id, explain the run, and when the workers have left they
say all there is to say. Each element has one row, an accepted one with its prompt and the outcome of
`_process_row`, a rejected one FAILED; `get_status` counts them; and exactly the
accepted ones have a record, with that outcome. A fair schedule comes to this
end. -/
theorem pipeline {σ : Type} (c : Client σ) (hr : pool.Reachable s₀)
    (ht : ∀ r ∈ s₀.items.rows, r.jobId ≠ e.job) (hw : ∀ w ∈ e.workers, s₀.workers w = none)
    (hlen : e.workers.length = e.settings.workerPoolSize) (hpool : 1 ≤ e.settings.workerPoolSize)
    (hsize : 1 ≤ e.settings.chunkSize) (hn : (fileIds text elements).Nodup) :
    let s₁ := ingested text e.settings e.job elements jobs s₀
    let es := entries text (buildValidationPipeline e.settings) elements
    let jobs' := (ingest text (buildValidationPipeline e.settings) s₀.items jobs e.job elements).2.1
    (∀ tr s, (e.liveWith c s₁).Run tr s → AllLeft e s.1 →
      ∃ byRow answers, ((e.withAnswers byRow).live s₁).Run (tr.map runPart) s.1 ∧
        AnswersById (e.withAnswers byRow) s₁ answers ∧
        Delivered e answers es jobs' s₀ s.1.pool) ∧
    ∀ state label, (e.liveWith c s₁).Schedule state label →
      (e.liveWith c s₁).Fair RunAct.progress state label → ∃ n, AllLeft e (state n).1 := by
  intro s₁ es jobs'
  have h₀ : Startable e s₁ := ingested_startable hr ht hw hlen hpool hsize hn
  refine ⟨fun tr s hs hl => ?_, fun state label hs hf => workers_leave_with h₀ hs hf⟩
  obtain ⟨byRow, hrun⟩ := stateless_run h₀ hs
  have h₀' := h₀.withAnswers byRow
  have hb := runBooks_reachable h₀' hrun.reachable
  have hl' : AllLeft (e.withAnswers byRow) s.1 := hl
  obtain ⟨answers, ha⟩ := exists_answersById (e.withAnswers byRow) s₁
  have htable : ((jobRows s.1.pool.items e.job).map shown).Perm
      (es.map (entryShown e.settings answers)) := by
    rw [show jobRows s.1.pool.items e.job = jobRows s.1.pool.items (e.withAnswers byRow).job from rfl,
      final_shown h₀' hl' hb ha]
    exact ingested_shown ht hn answers
  refine ⟨byRow, answers, hrun, ha, htable, fun r hrow => ?_, fun row hrow => ?_, ?_⟩
  · have hold : r ∈ s₁.items.rows := mem_afterInserts hrow
    obtain ⟨r', hr', h⟩ := forall₂_mem_left (final_rows h₀' hl' hb) hold
    have hno : ¬ (e.withAnswers byRow).takes r = true :=
      fun htk => ht r hrow (takes_iff.mp htk).1
    rw [if_neg hno] at h
    rwa [← h]
  · have hcounts := countByStatus_shown htable
    have hopen : ∀ st : ItemStatus, st.terminal = false →
        es.countP (fun en => (entryShown e.settings answers en).2.1 = st) = 0 := by
      intro st hst
      refine List.countP_eq_zero.mpr fun en _ he => ?_
      rw [← of_decide_eq_true he, entryShown_terminal] at hst
      cases hst
    have htotal : row.totalItems = es.length := by
      have hget : (jobs.setTotal e.job _).get e.job = some row := hrow
      rw [Jobs.setTotal, Jobs.get_update, Option.map_eq_some_iff] at hget
      obtain ⟨r, hr, he⟩ := hget
      rw [if_pos (Jobs.get_id hr)] at he
      rw [← he]
      exact (ingestLoop_counters text _ elements).1.trans (entriesFrom_length 0 {} elements).symm
    rw [Jobs.getStatus, hrow, Option.map_some, hcounts, hcounts, hcounts, hcounts,
      hopen .pending rfl, hopen .claimed rfl, Jobs.get_id hrow, htotal]
  · obtain ⟨stored, hfiles, hrec⟩ := (sequential_of_allLeft h₀' hl' hb).records
    exact ⟨stored, hfiles,
      hrec.trans (@ingested_records text (e.withAnswers byRow) s₀ elements jobs ht hn answers ha)⟩

end headline

/-! ## Non-vacuity -/

/-- The first call of all is turned away. -/
def busyOnce : Client Bool where
  init := true
  complete busy _ := if busy then (.retryable "busy", false) else (.success "ok", false)

def mixed : List Json := [.null, .obj [("id", .str "a"), ("prompt", .str "hi")]]

def mixedRows : EngineRun where
  job := "j"
  settings := { workerPoolSize := 1, chunkSize := 5 }
  maxConcurrency := 4
  workers := ["w1"]
  client _ _ := .success ""

def mixedRun : List RunAct :=
  [.pool (.claim "w1" chunk1 [⟨1, "a", "hi", 1⟩]), .row 0 0, .row 0 1, .row 0 2, .row 0 3,
    .gathered "w1", .pool (.written "w1"), .pool (.complete "w1" 1), .pool (.claim "w1" chunk1 [])]

theorem pipeline_mixed : ∃ s answers jobs, Delivered mixedRows answers
    (entries noText (buildValidationPipeline mixedRows.settings) mixed) jobs (.init 0) s ∧
      s.items.rows.map (fun r => (r.externalId, r.status, r.attempts)) =
        [("a", .succeeded, 2), ("row-1", .failed, 0)] := by
  obtain ⟨⟨tr, s⟩, he, hl, hleft, hst⟩ : ∃ q,
      LTS.exec (mixedRows.stepWith busyOnce) (⟨mixedRows.started (ingested noText
        mixedRows.settings "j" mixed .empty (.init 0)), ⟨4, 0, []⟩⟩, true) mixedRun = some q ∧
      q.1.all (fun t => leasesHold t.pre.1) = true ∧
      mixedRows.workers.all (fun w => (q.2.1.pool.workers w).any fun k => k.life = .left) = true ∧
      q.2.1.pool.items.rows.map (fun r => (r.externalId, r.status, r.attempts)) =
        [("a", .succeeded, 2), ("row-1", .failed, 0)] :=
    ⟨_, rfl, by decide +kernel, by decide +kernel, by decide +kernel⟩
  have hr : (mixedRows.liveWith busyOnce (ingested noText mixedRows.settings "j" mixed .empty
      (.init 0))).Run tr s := liveWith_of_exec rfl he hl
  obtain ⟨-, answers, -, -, hd⟩ := (@pipeline noText mixedRows (.init 0) mixed .empty _ busyOnce
    ⟨[], .nil ⟨0, rfl⟩⟩ (fun _ h => absurd h List.not_mem_nil) (fun _ _ => rfl) rfl (by decide) (by decide)
    (by decide +kernel)).1 tr s hr (allLeft_of_all hleft)
  exact ⟨s.1.pool, answers, _, hd, hst⟩

end BatchSystem.Service
