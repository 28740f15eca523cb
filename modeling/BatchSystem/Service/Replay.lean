import BatchSystem.Service.JobStates
import BatchSystem.Service.Totals

/-!
# Ingesting a file more than once

A resumed execution reads the file again, while the ingest of another process
and the workers of the job may still be going. All of them issue the same
`bulk_insert` calls in the same order (`Unchanged`), so the rows inserted so far
are those of the first calls, up to the furthest ingest (`Replays`): a call that
was made before finds all its keys taken.

`ingestion_idempotent`: once an ingest has run to its end, the rows inserted are
those of one uninterrupted ingest, and so is the total; no call touches a row
that exists.
-/
namespace BatchSystem.Service

open BatchSystem.Core Domain Queue Engine Ingest

/-- File and validation settings are the same in every ingest of the job. -/
def Unchanged (job : JobId) (rules : List ValidationRule) (elements : List Json) (s : SState) :
    SAct → Prop
  | .setIngesting e elements' => ∀ x, s.execs e = some x → x.job = job →
    elements' = elements ∧ buildValidationPipeline x.settings = rules
  | _ => True

/-- The rows of the job that a step inserts. -/
def insertedBy (job : JobId) (t : Trans SState SAct) : List ItemRow :=
  match poolAct t.pre t.lbl with
  | none => []
  | some a => (rowsNew t.pre.pool a).filter fun r => r.jobId = job

def inserted (tr : List (Trans SState SAct)) (job : JobId) : List ItemRow :=
  tr.flatMap (insertedBy job)

/-- An ingest of the job has run to its end. -/
def Ends (job : JobId) (t : Trans SState SAct) : Prop :=
  ∃ e x, t.lbl = .setTotal e ∧ t.pre.execs e = some x ∧ x.job = job

/-- The steps of an ingest. -/
def ingests : SAct → Bool
  | .setIngesting .. | .flush _ | .setTotal _ => true
  | _ => false

/-- The candidates of some `bulk_insert` calls. -/
def callRows (job : JobId) (calls : List (List PromptItem × List ResultRecord)) : List ItemRow :=
  calls.flatMap fun b => insertRows job b.1 b.2

/-! ## The table of one job -/

/-- The rows of one job. -/
def jobRows (t : PromptItems) (job : JobId) : List ItemRow := t.rows.filter fun r => r.jobId = job

theorem keys_eq {rows rows' : List ItemRow} (h : List.Forall₂ ItemRow.SameKey rows rows') :
    rows.map ItemRow.key = rows'.map ItemRow.key := by
  induction h with
  | nil => rfl
  | cons hk _ ih => rw [List.map_cons, List.map_cons, ih, hk.key_eq]

theorem mem_jobRows_keys {t : PromptItems} {job : JobId} {k : JobId × String} (hk : k.1 = job) :
    k ∈ (jobRows t job).map ItemRow.key ↔ k ∈ t.rows.map ItemRow.key := by
  rw [List.mem_map, List.mem_map]
  constructor
  · rintro ⟨r, hr, rfl⟩
    exact ⟨r, (List.mem_filter.mp hr).1, rfl⟩
  · rintro ⟨r, hr, rfl⟩
    exact ⟨r, List.mem_filter.mpr ⟨hr, decide_eq_true hk⟩, rfl⟩

section rows
variable {text : Json → String} {s v : SState} {l : SAct} {job : JobId}

theorem jobRows_next (hr : (system text).Reachable s) (hst : (system text).step s l v)
    {ins : List ItemRow} (h : List.Forall₂ ItemRow.SameKey ins (jobRows s.pool.items job)) :
    List.Forall₂ ItemRow.SameKey (ins ++ insertedBy job ⟨s, l, v⟩) (jobRows v.pool.items job) := by
  have href := system_refines.step s l v hr hst
  unfold insertedBy
  simp only
  cases ha : poolAct s l with
  | none =>
    simp only [ha] at href
    rw [href, List.append_nil]
    exact h
  | some a =>
    simp only [ha] at href
    have hkeep : ∀ r, decide ((rowNext s.pool a r).jobId = job) = decide (r.jobId = job) :=
      fun r => by rw [(rowNext_sameKey s.pool a r).2.1]
    have hold : (s.pool.items.rows.map (rowNext s.pool a)).filter (fun r => r.jobId = job) =
        (jobRows s.pool.items job).map (rowNext s.pool a) := by
      rw [List.filter_map, jobRows]
      congr 2
      exact funext hkeep
    rw [jobRows, step_rows (pool_reachable hr) href, List.filter_append, hold]
    refine List.rel_append ?_ ?_
    · rw [List.forall₂_map_right_iff]
      exact h.imp fun r r' hk => hk.trans (rowNext_sameKey s.pool a r')
    · exact List.forall₂_same.mpr fun r _ => .refl r

/-- A step that inserts rows of the job is a flush of one of its ingests. -/
theorem flush_of_inserted (hst : (system text).step s l v) (h : insertedBy job ⟨s, l, v⟩ ≠ []) :
    ∃ e x b rest total, l = .flush e ∧ s.execs e = some x ∧ x.job = job ∧
      x.pc = .ingesting (b :: rest) total := by
  obtain ⟨r, hr⟩ := List.exists_mem_of_ne_nil _ h
  unfold insertedBy at hr
  simp only at hr
  split at hr
  · cases hr
  · rename_i a ha
    obtain ⟨hnew, hj⟩ := List.mem_filter.mp hr
    obtain ⟨items, failed, rfl⟩ := rowsNew_job hnew
    obtain ⟨e, x, rest, total, hl, hx, hxj, hp⟩ := flush_of_bulkInsert hst ha
    exact ⟨e, x, _, rest, total, hl, hx, hxj.trans (of_decide_eq_true hj), hp⟩

/-- A flush inserts the candidates whose keys the job does not have yet. -/
theorem flush_inserted {e : ExecId} {x : Execution} {b : List PromptItem × List ResultRecord}
    {rest : List (List PromptItem × List ResultRecord)} {total : Nat}
    (hx : s.execs e = some x) (hj : x.job = job) (hp : x.pc = .ingesting (b :: rest) total)
    {ins : List ItemRow} (h : List.Forall₂ ItemRow.SameKey ins (jobRows s.pool.items job)) :
    (insertedBy job ⟨s, .flush e, v⟩).map ItemRow.content =
      firstWins ItemRow.key (ins.map ItemRow.key) (insertRows job b.1 b.2) := by
  subst hj
  have hact : poolAct s (.flush e) = some (.bulkInsert x.job b.1 b.2) := by
    simp only [poolAct, hx, Option.bind_some, hp]
  have hnew : rowsNew s.pool (.bulkInsert x.job b.1 b.2) =
      s.pool.items.freshRows (insertRows x.job b.1 b.2) := rfl
  unfold insertedBy
  simp only [hact, hnew]
  rw [List.filter_eq_self.mpr, PromptItems.freshRows_content, insertRows_content]
  · refine firstWins_congr fun c hc => ?_
    rw [keys_eq h, mem_jobRows_keys (insertRows_job hc)]
  · intro r hr
    exact decide_eq_true (freshRows_unclaimed hr).1

end rows

/-! ## How far the ingests have come -/

/-- The first `m` of the calls have been made, none of the others, and every
ingest of the job is among the first `m` or about to make the next one. -/
structure Replays (job : JobId) (calls : List (List PromptItem × List ResultRecord))
    (total : Nat) (tr : List (Trans SState SAct)) (s : SState) (m : Nat) : Prop where
  bound : m ≤ calls.length
  contents : (inserted tr job).map ItemRow.content =
    firstWins ItemRow.key [] (callRows job (calls.take m))
  rows : List.Forall₂ ItemRow.SameKey (inserted tr job) (jobRows s.pool.items job)
  ingests : ∀ e x rest n, s.execs e = some x → x.job = job → x.pc = .ingesting rest n →
    n = total ∧ ∃ i ≤ m, rest = calls.drop i
  ended : (∃ t ∈ tr, Ends job t) → m = calls.length ∧
    ∃ row, s.jobs.get job = some row ∧ row.totalItems = total

theorem inserted_snoc (tr : List (Trans SState SAct)) (t : Trans SState SAct) (job : JobId) :
    inserted (tr ++ [t]) job = inserted tr job ++ insertedBy job t := by
  simp [inserted]

section replays
variable {text : Json → String} {s v : SState} {l : SAct} {job : JobId}
  {calls : List (List PromptItem × List ResultRecord)} {total : Nat}

/-- The keys of the calls made so far. -/
theorem Replays.keys {tr : List (Trans SState SAct)} {m : Nat}
    (h : Replays job calls total tr s m) (k : JobId × String) :
    k ∈ (inserted tr job).map ItemRow.key ↔
      k ∈ (callRows job (calls.take m)).map ItemRow.key := by
  have hc : (inserted tr job).map ItemRow.key =
      ((inserted tr job).map ItemRow.content).map ItemRow.key := by simp [Function.comp_def]
  rw [hc, h.contents, mem_firstWins_keys]
  simp

/-- A call that was made before adds nothing; the next one adds its own rows. -/
theorem Replays.flush {tr : List (Trans SState SAct)} {m i : Nat}
    (h : Replays job calls total tr s m) (hi : i ≤ m)
    {b : List PromptItem × List ResultRecord}
    {rest : List (List PromptItem × List ResultRecord)} (hb : calls.drop i = b :: rest) :
    max m (i + 1) ≤ calls.length ∧ rest = calls.drop (i + 1) ∧
      firstWins ItemRow.key [] (callRows job (calls.take m)) ++
          firstWins ItemRow.key ((inserted tr job).map ItemRow.key) (insertRows job b.1 b.2) =
        firstWins ItemRow.key [] (callRows job (calls.take (max m (i + 1)))) := by
  have hlt : i < calls.length := by
    by_contra hge
    rw [List.drop_eq_nil_of_le (by omega)] at hb
    cases hb
  rw [List.drop_eq_getElem_cons hlt, List.cons.injEq] at hb
  obtain ⟨rfl, rfl⟩ := hb
  have hbound := h.bound
  refine ⟨by omega, rfl, ?_⟩
  have hseen : firstWins ItemRow.key ((inserted tr job).map ItemRow.key)
      (insertRows job calls[i].1 calls[i].2) = firstWins ItemRow.key
        ((callRows job (calls.take m)).map ItemRow.key) (insertRows job calls[i].1 calls[i].2) :=
    firstWins_congr fun c _ => h.keys c.key
  rw [hseen]
  rcases Nat.lt_or_ge i m with him | hmi
  · -- replayed
    have hnil : firstWins ItemRow.key ((callRows job (calls.take m)).map ItemRow.key)
        (insertRows job calls[i].1 calls[i].2) = [] := by
      refine firstWins_eq_nil fun c hc => ?_
      refine List.mem_map_of_mem (List.mem_flatMap.mpr ⟨calls[i], ?_, hc⟩)
      exact List.mem_take_iff_getElem.mpr ⟨i, by omega, rfl⟩
    rw [Nat.max_eq_left (by omega), hnil, List.append_nil]
  · obtain rfl : i = m := by omega
    rw [Nat.max_eq_right (by omega), List.take_succ_eq_append_getElem hlt, callRows, callRows,
      List.flatMap_append, List.flatMap_singleton, firstWins_append, List.append_nil]

/-- An ingest of the job stands where it stood, has just begun, or has made its
next call. -/
theorem ingesting_next (hc : Change text s l v) {e : ExecId} {x' : Execution}
    {rest : List (List PromptItem × List ResultRecord)} {n : Nat} (hx' : v.execs e = some x')
    (hp : x'.pc = .ingesting rest n) :
    (s.execs e = some x') ∨
    (∃ x elements, l = .setIngesting e elements ∧ s.execs e = some x ∧ x'.job = x.job ∧
      rest = (ingestLoop text (buildValidationPipeline x.settings) elements).flushed ∧
      n = (ingestLoop text (buildValidationPipeline x.settings) elements).total) ∨
    ∃ x b, l = .flush e ∧ s.execs e = some x ∧ x'.job = x.job ∧ x.pc = .ingesting (b :: rest) n := by
  cases execTurn_of_change hc hx' with
  | same hx => exact .inl hx
  | submit | resume | runWorker | setTotal | setRunning | engineStart | gathered | setCompleted
  | handlerRaises | setFailed | crash => cases hp
  | setIngesting elements hx =>
    cases hp
    exact .inr (.inl ⟨_, elements, rfl, hx, rfl, rfl, rfl⟩)
  | flush hx hp₀ =>
    cases hp
    exact .inr (.inr ⟨_, _, rfl, hx, rfl, hp₀⟩)
  | @gatherRaises x _ msg | @raise x msg =>
    have hp : x.except msg = .ingesting rest n := hp
    unfold Execution.except at hp
    split at hp <;> cases hp

/-- `set_total` alone writes the total. -/
theorem total_next (hc : Change text s l v) {row row' : JobRow}
    (hrow : s.jobs.get job = some row) (hrow' : v.jobs.get job = some row') :
    row'.totalItems = row.totalItems ∨ ∃ e x, l = .setTotal e ∧ s.execs e = some x ∧
      x.job = job ∧ x.pc = .ingesting [] row'.totalItems := by
  cases job_next hc hrow' with
  | same h => exact .inl (by rw [Option.some.inj (h.symm.trans hrow)])
  | created _ hn => rw [hrow] at hn; cases hn
  | state _ _ _ h he =>
    obtain rfl := Option.some.inj (h.symm.trans hrow)
    exact .inl (by rw [he])
  | total hl hx hj hp _ he => exact .inr ⟨_, _, hl, hx, hj, by rw [hp, he]⟩

/-- A job with an `_execute` has a record. -/
def Recorded (s : SState) : Prop :=
  ∀ e x, s.execs e = some x → x.standalone = false → ∃ row, s.jobs.get x.job = some row

theorem recorded_reachable (hr : (system text).Reachable s) : Recorded s := by
  refine hr.induct (I := Recorded) ?_ ?_
  · rintro _ ⟨now, rfl⟩ e x hx
    cases hx
  · intro s l v _ ih hst e x' hx' hs
    have hc := change_of_step hst
    cases hx : s.execs e with
    | some x =>
      rw [exec_job hc hx hx']
      obtain ⟨row, hrow⟩ := ih e x hx ((exec_kept hc hx hx').1.symm.trans hs)
      exact job_persists hc hrow
    | none =>
      cases exec_born hc hx hx' with
      | @submit path model settings hl =>
        subst hl
        cases hc with
        | @submit _ _ _ _ _ jobs _ hjobs =>
          refine ⟨newJob x'.job path model settings, ?_⟩
          show jobs.get x'.job = _
          rw [Jobs.get_create hjobs, newJob, if_pos rfl]
      | resume _ ha =>
        obtain ⟨row, hrow, -⟩ := mem_listActive ha
        exact job_persists hc hrow
      | runWorker _ hs' => rw [hs] at hs'; cases hs'

/-- After the end of an ingest. -/
theorem Replays.ended_next {tr : List (Trans SState SAct)} {m : Nat}
    (h : Replays job calls total tr s m) (hr : (system text).Reachable s)
    (hc : Change text s l v) (ht : ∃ t ∈ tr ++ [⟨s, l, v⟩], Ends job t) :
    m = calls.length ∧ ∃ row, v.jobs.get job = some row ∧ row.totalItems = total := by
  obtain ⟨t, ht, hend⟩ := ht
  rcases List.mem_append.mp ht with ht | ht
  · obtain ⟨hm, row, hrow, htot⟩ := h.ended ⟨t, ht, hend⟩
    obtain ⟨row', hrow'⟩ := job_persists hc hrow
    refine ⟨hm, row', hrow', ?_⟩
    rcases total_next hc hrow hrow' with he | ⟨e, x, -, hx, hj, hp⟩
    · rw [he, htot]
    · exact (h.ingests e x _ _ hx hj hp).1
  · obtain rfl := List.mem_singleton.mp ht
    obtain ⟨e, x, hl, hx, hj⟩ := hend
    obtain rfl : l = .setTotal e := hl
    cases hc with
    | @setTotal _ y n hy hp =>
      obtain rfl := Option.some.inj (hy.symm.trans hx)
      obtain ⟨hn, i, hi, hrest⟩ := h.ingests e _ _ _ hy hj hp
      have hbound := h.bound
      have hlen := List.drop_eq_nil_iff.mp hrest.symm
      refine ⟨by omega, ?_⟩
      have hs : y.standalone = false := by
        by_contra hs
        have := standaloneOk_reachable hr e y hy (by simpa using hs)
        rw [hp] at this; cases this
      obtain ⟨row, hrow⟩ := recorded_reachable hr e y hy hs
      subst hj hn
      refine ⟨{ row with totalItems := n }, ?_, rfl⟩
      show (s.jobs.setTotal y.job n).get y.job = _
      rw [Jobs.setTotal]
      exact Jobs.get_update_self hrow _ _

theorem replays_step {rules : List ValidationRule} {elements : List Json}
    {tr : List (Trans SState SAct)} {m : Nat} (hr : (system text).Reachable s)
    (h : Replays job (ingestLoop text rules elements).flushed (ingestLoop text rules elements).total
      tr s m) (hst : (system text).step s l v) (hu : Unchanged job rules elements s l) :
    ∃ m', Replays job (ingestLoop text rules elements).flushed
      (ingestLoop text rules elements).total (tr ++ [⟨s, l, v⟩]) v m' := by
  have hc := change_of_step hst
  have hrows := jobRows_next hr hst h.rows
  rw [← inserted_snoc] at hrows
  by_cases hown : ∃ e x b rest n, l = .flush e ∧ s.execs e = some x ∧ x.job = job ∧
      x.pc = .ingesting (b :: rest) n
  · obtain ⟨e, x, b, rest, n, rfl, hx, hj, hp⟩ := hown
    obtain ⟨hn, i, hi, hrest⟩ := h.ingests e x _ _ hx hj hp
    obtain ⟨hlen, hrest', hcontents⟩ := h.flush hi hrest.symm
    refine ⟨max m (i + 1), hlen, ?_, hrows, fun e' x' rest' n' hx' hj' hp' => ?_, fun ht => ?_⟩
    · rw [inserted_snoc, List.map_append, h.contents, flush_inserted hx hj hp h.rows, hcontents]
    · rcases ingesting_next hc hx' hp' with hold | ⟨_, _, hl, -⟩ | ⟨y, c, hl, hy, -, hyp⟩
      · obtain ⟨h1, i', h2, h3⟩ := h.ingests e' x' _ _ hold hj' hp'
        exact ⟨h1, i', by omega, h3⟩
      · cases hl
      · cases hl
        obtain rfl := Option.some.inj (hy.symm.trans hx)
        rw [hp] at hyp
        cases hyp
        exact ⟨hn, i + 1, by omega, hrest'⟩
    · obtain ⟨hm, hrow⟩ := h.ended_next hr hc ht
      exact ⟨by omega, hrow⟩
  · have hnil : insertedBy job ⟨s, l, v⟩ = [] := by
      by_contra hne
      obtain ⟨e, x, b, rest, n, hl⟩ := flush_of_inserted hst hne
      exact hown ⟨e, x, b, rest, n, hl⟩
    refine ⟨m, h.bound, ?_, hrows, fun e' x' rest' n' hx' hj' hp' => ?_, h.ended_next hr hc⟩
    · rw [inserted_snoc, hnil, List.append_nil, h.contents]
    · rcases ingesting_next hc hx' hp' with hold | ⟨x, els, rfl, hx, hxj, rfl, rfl⟩ |
        ⟨y, c, hl, hy, hyj, hyp⟩
      · exact h.ingests e' x' _ _ hold hj' hp'
      · obtain ⟨rfl, rfl⟩ := hu x hx (hxj.symm.trans hj')
        exact ⟨rfl, 0, by omega, rfl⟩
      · exact absurd ⟨e', y, c, rest', n', hl, hy, hyj.symm.trans hj', hyp⟩ hown

theorem replays_run {rules : List ValidationRule} {elements : List Json}
    {tr : List (Trans SState SAct)}
    (h : ((system text).restrict (Unchanged job rules elements)).Run tr s) :
    ∃ m, Replays job (ingestLoop text rules elements).flushed
      (ingestLoop text rules elements).total tr s m := by
  refine h.induct (P := fun tr s => ∃ m, Replays job (ingestLoop text rules elements).flushed
    (ingestLoop text rules elements).total tr s m) ?_ ?_
  · rintro _ ⟨now, rfl⟩
    refine ⟨0, by omega, rfl, .nil, fun e x rest n hx => ?_, ?_⟩
    · cases hx
    · rintro ⟨t, ht, -⟩
      cases ht
  · intro tr s l v hr ⟨m, hm⟩ hst
    exact replays_step hr.of_restrict.reachable hm hst.1 hst.2

/-- No step of an ingest changes a row that exists. -/
theorem ingests_keeps (hr : (system text).Reachable s) (hst : (system text).step s l v)
    (hi : ingests l = true) : ∀ r ∈ s.pool.items.rows, r ∈ v.pool.items.rows := by
  intro r hrow
  rcases pool_next hr hst with hp | ⟨a, ha, hp⟩
  · rw [hp]; exact hrow
  cases change_of_step hst with
  | flush hx hpc =>
    simp only [poolAct, hx, Option.bind_some, hpc, Option.some.injEq] at ha
    subst ha
    exact rowNext_mem (pool_reachable hr) hp hrow
  | setIngesting | setTotal => cases ha
  | submit | resume | runWorker | setRunning | engineStart | gathered | setCompleted
  | gatherRaises | raise | handlerRaises | setFailed | crash | worker => cases hi

/-- **Ingestion is idempotent.** When an ingest of the job has run to its end,
whatever other ingests of the file and workers did before, between and after its
calls, the rows inserted for the job are those that one uninterrupted ingest
adds, these are still the rows of the job, the total is the same, and no step of
an ingest has changed a row. -/
theorem ingestion_idempotent {rules : List ValidationRule} {elements : List Json}
    {tr : List (Trans SState SAct)}
    (h : ((system text).restrict (Unchanged job rules elements)).Run tr s)
    (hend : ∃ t ∈ tr, Ends job t) :
    (∀ t jobs, (∀ r ∈ t.rows, r.jobId ≠ job) →
      ((ingest text rules t jobs job elements).1.rows).map ItemRow.content =
        t.rows.map ItemRow.content ++ (inserted tr job).map ItemRow.content) ∧
    List.Forall₂ ItemRow.SameKey (inserted tr job) (jobRows s.pool.items job) ∧
    (∃ row, s.jobs.get job = some row ∧
      ∀ t jobs, row.totalItems = (ingest text rules t jobs job elements).2.2.total) ∧
    ∀ t ∈ tr, ingests t.lbl = true → ∀ r ∈ t.pre.pool.items.rows, r ∈ t.post.pool.items.rows := by
  obtain ⟨m, hm⟩ := replays_run h
  obtain ⟨hlen, row, hrow, htot⟩ := hm.ended hend
  refine ⟨fun t jobs ht => ?_, hm.rows, ⟨row, hrow, fun _ _ => htot⟩, fun t ht hi => ?_⟩
  · obtain ⟨bs, -, hf⟩ := ingestLoop_batches text rules elements
    have hcalls : callRows job (bs.map batch) = candidates job bs := by
      rw [callRows, candidates, List.flatMap_map]
    rw [ingest_rows_of_calls hf jobs ht, hm.contents, hlen, List.take_length, hf, hcalls]
  · obtain ⟨tr₁, tr₂, rfl⟩ := List.append_of_mem ht
    obtain ⟨hr, hst, -⟩ := h.of_restrict.split
    exact ingests_keeps hr.reachable hst hi

end replays
/-! ## Non-vacuity -/

/-- A replica ingests the file and its worker claims a row; then the first process
makes its own call and dies, and a third one begins again. -/
def replayedRun : List SAct :=
  [.submit 0 "j" "in.json" none oneWorker, .setIngesting 0 fileMixed, .resume [1] oneWorker,
    .setIngesting 1 fileMixed, .flush 1, .setTotal 1, .setRunning 1, .engineStart 1 ["w1"],
    .worker (.claim "w1" chunk1 [⟨1, "a", "hi", 1⟩]), .flush 0, .crash [0]]

/-- The ingests run with the settings `settings`. -/
def ingestsWith (settings : Settings) (t : Trans SState SAct) : Bool :=
  match t.lbl with
  | .setIngesting e _ => (t.pre.execs e).all fun x => x.settings = settings
  | _ => true

theorem unchanged_replayedRun {t : Trans SState SAct} (hl : t.lbl ∈ replayedRun)
    (h : ingestsWith oneWorker t = true) :
    Unchanged "j" (buildValidationPipeline oneWorker) fileMixed t.pre t.lbl := by
  unfold Unchanged
  unfold ingestsWith at h
  split
  · rename_i e elements he
    rw [he] at h hl
    intro x hx _
    have hs : x.settings = oneWorker := by simpa [hx] using h
    have hels : elements = fileMixed := by
      simp only [replayedRun, List.mem_cons, SAct.setIngesting.injEq, reduceCtorEq, false_or,
        List.not_mem_nil, or_false] at hl
      rcases hl with hl | hl <;> exact hl.2
    exact ⟨hels, by rw [hs]⟩
  · trivial

theorem ingestion_idempotent_replayed : ∃ tr s, ((system noText).restrict
    (Unchanged "j" (buildValidationPipeline oneWorker) fileMixed)).Run tr s ∧
      (jobRows s.pool.items "j").map (·.status) = [.claimed, .failed] ∧
      (inserted tr "j").map ItemRow.content = ((ingest noText (buildValidationPipeline oneWorker)
        .empty .empty "j" fileMixed).1.rows).map ItemRow.content := by
  obtain ⟨⟨tr, s⟩, he, hq, hs, t, ht, hl, x, hx, hj⟩ : ∃ p,
      LTS.exec (sysStep noText) (.init 0) replayedRun = some p ∧
        (∀ t ∈ p.1, ingestsWith oneWorker t = true) ∧
        (jobRows p.2.pool.items "j").map (·.status) = [.claimed, .failed] ∧ ∃ t, p.1[5]? = some t ∧
          t.lbl = .setTotal 1 ∧ ∃ x, t.pre.execs 1 = some x ∧ x.job = "j" :=
    ⟨_, rfl, by decide +kernel, by decide +kernel, _, rfl, rfl, _, rfl, rfl⟩
  have hp : (system noText).Path (.init 0) tr s := LTS.path_of_exec he
  have hr : ((system noText).restrict
      (Unchanged "j" (buildValidationPipeline oneWorker) fileMixed)).Run tr s :=
    ⟨_, ⟨0, rfl⟩, hp.restrict fun t ht =>
      unchanged_replayedRun (LTS.lbl_of_exec he t ht) (hq t ht)⟩
  have hend : ∃ t ∈ tr, Ends "j" t := ⟨t, List.mem_of_getElem? ht, 1, x, hl, hx, hj⟩
  have hcontents := (ingestion_idempotent hr hend).1 .empty .empty (by simp [PromptItems.empty])
  exact ⟨tr, s, hr, hs, hcontents.symm⟩

end BatchSystem.Service
