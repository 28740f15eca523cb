import BatchSystem.Service.Completion
import Mathlib.Data.List.Dedup

/-!
# The total and the rows

`total` counts the elements of the file while they are parsed; the rows are
what `ON CONFLICT DO NOTHING` leaves of them. During the single execution of a
job (`Single`), `Progress` ties both to where the execution stands: at the end
of the ingest the rows carry exactly the external ids of the elements, one row
for each id. So the total is the number of rows exactly if the ids are distinct
(`total_conserved_iff`).
-/
namespace BatchSystem.Service

open BatchSystem.Core Domain Queue Engine Ingest

/-! ## Rows of one job -/

/-- The external ids of the rows of a job. -/
def jobIds (t : PromptItems) (job : JobId) : List String :=
  ((t.rows.map ItemRow.key).filter fun k => k.1 = job).map Prod.snd

theorem mem_jobIds {t : PromptItems} {job : JobId} {id : String} :
    id ∈ jobIds t job ↔ (job, id) ∈ t.rows.map ItemRow.key := by
  simp [jobIds]

theorem jobIds_nodup (t : PromptItems) (job : JobId) : (jobIds t job).Nodup := by
  have hn := t.uqJobExternal.filter fun k => k.1 = job
  refine hn.map_on fun a ha b hb he => ?_
  have h1 := of_decide_eq_true (List.mem_filter.mp ha).2
  have h2 := of_decide_eq_true (List.mem_filter.mp hb).2
  exact Prod.ext (h1.trans h2.symm) he

/-- The four counts of `get_status` add up to the rows of the job. -/
theorem counts_sum (t : PromptItems) (job : JobId) :
    countByStatus t job .pending + countByStatus t job .claimed + countByStatus t job .succeeded +
      countByStatus t job .failed = (jobIds t job).length := by
  simp only [countByStatus, jobIds, List.length_map]
  induction t.rows with
  | nil => rfl
  | cons r rows ih =>
    simp only [List.countP_cons, List.map_cons, List.filter_cons]
    by_cases hj : r.jobId = job
    · have hk : r.key.1 = job := hj
      cases hs : r.status <;> simp [hj, hk] <;> omega
    · have hk : r.key.1 ≠ job := hj
      simpa [hj, hk] using ih

theorem length_eq_iff_nodup {α : Type} [DecidableEq α] {xs ys : List α} (hn : xs.Nodup)
    (h : ∀ a, a ∈ xs ↔ a ∈ ys) : ys.length = xs.length ↔ ys.Nodup := by
  have hp : xs.Perm ys.dedup := by
    rw [List.perm_ext_iff_of_nodup hn ys.nodup_dedup]
    exact fun a => (h a).trans List.mem_dedup.symm
  rw [hp.length_eq]
  constructor
  · intro hl
    rw [← (List.dedup_sublist ys).eq_of_length hl.symm]
    exact ys.nodup_dedup
  · intro hd
    rw [hd.dedup]

/-- A step of the pool adds the ids of its new rows. -/
theorem jobIds_next {s v : PState} {a : Act} (hr : pool.Reachable s) (hst : pool.step s a v)
    (job : JobId) : jobIds v.items job = jobIds s.items job ++
      (((rowsNew s a).map ItemRow.key).filter fun k => k.1 = job).map Prod.snd := by
  have hk : ItemRow.key ∘ rowNext s a = ItemRow.key :=
    funext fun r => (rowNext_sameKey s a r).key_eq
  rw [jobIds, jobIds, step_rows hr hst, List.map_append, List.map_map, hk, List.filter_append,
    List.map_append]

/-- Only a `bulk_insert` for the job adds rows to it. -/
theorem jobIds_frame {s v : PState} {a : Act} (hr : pool.Reachable s) (hst : pool.step s a v)
    {job : JobId} (ha : ∀ items failed, a ≠ .bulkInsert job items failed) :
    jobIds v.items job = jobIds s.items job := by
  have hnil : ((rowsNew s a).map ItemRow.key).filter (fun k => k.1 = job) = [] := by
    rw [List.filter_eq_nil_iff]
    intro k hk hj
    obtain ⟨r, hm, rfl⟩ := List.mem_map.mp hk
    obtain ⟨items, failed, he⟩ := rowsNew_job hm
    exact ha items failed (of_decide_eq_true hj ▸ he)
  rw [jobIds_next hr hst, hnil, List.map_nil, List.append_nil]

/-- After a `bulk_insert` the job has the ids of the candidates. -/
theorem mem_jobIds_insert {s v : PState} {job : JobId} {items : List PromptItem}
    {failed : List ResultRecord} (hr : pool.Reachable s)
    (hst : pool.step s (.bulkInsert job items failed) v) (id : String) :
    id ∈ jobIds v.items job ↔ id ∈ jobIds s.items job ∨
      id ∈ items.map (·.externalId) ++ failed.map (·.externalId) := by
  have hc : (job, id) ∈ ((insertRows job items failed).map ItemRow.content).map ItemRow.key ↔
      id ∈ items.map (·.externalId) ++ failed.map (·.externalId) := by
    simp [insertRows, pendingRow, failedRow, ItemRow.key, ItemRow.content]
  have hn : (rowsNew s (.bulkInsert job items failed)).map ItemRow.key =
      ((s.items.freshRows (insertRows job items failed)).map ItemRow.content).map ItemRow.key := by
    rw [List.map_map]; rfl
  rw [mem_jobIds, mem_jobIds, step_rows hr hst, List.map_append, List.mem_append, List.map_map,
    show ItemRow.key ∘ rowNext s _ = ItemRow.key from
      funext fun r => (rowNext_sameKey s _ r).key_eq,
    hn, PromptItems.freshRows_content, mem_firstWins_keys, hc]
  tauto

/-! ## The ids of a file -/

section file
variable (text : Json → String)

/-- The external id of each element. -/
def fileIds (elements : List Json) : List String :=
  elements.mapIdx fun k obj => elementId text obj (k + 1)

/-- The external ids of the candidates of `bulk_insert` calls. -/
def callIds (calls : List (List PromptItem × List ResultRecord)) : List String :=
  calls.flatMap fun b => b.1.map (·.externalId) ++ b.2.map (·.externalId)

variable {text}

theorem entriesFrom_ids (rules : List ValidationRule) (n : Nat) (ctx : ValidationContext)
    (objs : List Json) : (entriesFrom text rules n ctx objs).map Entry.externalId =
      objs.mapIdx fun k obj => elementId text obj (n + k + 1) := by
  induction objs generalizing n ctx with
  | nil => rfl
  | cons obj objs ih =>
    rw [entriesFrom, List.map_cons, ih, List.mapIdx_cons, entryOf_externalId]
    congr 2
    funext k o
    rw [show n + 1 + k + 1 = n + (k + 1) + 1 by omega]

theorem mem_batch_ids {es : List Entry} {id : String} :
    id ∈ (batch es).1.map (·.externalId) ++ (batch es).2.map (·.externalId) ↔
      id ∈ es.map Entry.externalId := by
  simp only [List.mem_append, List.mem_map]
  constructor
  · rintro (⟨item, hi, rfl⟩ | ⟨fr, hf, rfl⟩)
    · exact ⟨_, mem_batch_items.mp hi, rfl⟩
    · exact ⟨_, mem_batch_failed.mp hf, rfl⟩
  · rintro ⟨e, he, rfl⟩
    cases e with
    | accepted item => exact .inl ⟨item, mem_batch_items.mpr he, rfl⟩
    | rejected fr => exact .inr ⟨fr, mem_batch_failed.mpr he, rfl⟩

/-- The calls of an ingest carry the ids of the elements. -/
theorem mem_callIds_ingest (rules : List ValidationRule) (elements : List Json) (id : String) :
    id ∈ callIds (ingestLoop text rules elements).flushed ↔ id ∈ fileIds text elements := by
  obtain ⟨bs, hb, hf⟩ := ingestLoop_batches text rules elements
  have hids : (entries text rules elements).map Entry.externalId = fileIds text elements := by
    rw [entries, entriesFrom_ids, fileIds]
    simp only [Nat.zero_add]
  rw [hf, ← hids, ← hb.flatten_eq, callIds, List.flatMap_map, List.mem_flatMap, List.map_flatten,
    List.mem_flatten]
  constructor
  · rintro ⟨es, hes, h⟩
    exact ⟨_, List.mem_map_of_mem hes, mem_batch_ids.mp h⟩
  · rintro ⟨_, hm, h⟩
    obtain ⟨es, hes, rfl⟩ := List.mem_map.mp hm
    exact ⟨es, hes, mem_batch_ids.mpr h⟩

end file

/-! ## The single execution -/

section progress
variable (text : Json → String) (job : JobId) (elements : List Json)

/-- The job runs once: no process resumes it or works on it by itself, and the
file holds `elements`. -/
def Single (s : SState) : SAct → Prop
  | .setIngesting e elements' => ∀ x, s.execs e = some x → x.job = job → elements' = elements
  | .resume _ _ => ∀ a ∈ s.jobs.listActive, a.1 ≠ job
  | .runWorker _ job' _ => job' ≠ job
  | _ => True

/-- The total is that of the file and the rows carry its ids. -/
structure Total (ids : List String) (row : JobRow) : Prop where
  total : row.totalItems = elements.length
  ids : ∀ id, id ∈ ids ↔ id ∈ fileIds text elements

/-- What the job row and the ids of the job are where the execution stands. -/
def Progress (ids : List String) (row : JobRow) : Pc → Prop
  | .created => row.state = .pending ∧ ids = []
  | .ingesting rest total => row.state = .ingesting ∧ total = elements.length ∧
      ∀ id, (id ∈ ids ∨ id ∈ callIds rest) ↔ id ∈ fileIds text elements
  | .ingested => row.state = .ingesting ∧ Total text elements ids row
  | .starting | .running | .gathered => row.state = .running ∧ Total text elements ids row
  | .finished => row.state = .completed ∧ Total text elements ids row
  | .failing _ | .failed | .raised | .dead =>
      row.state = .running ∨ row.state = .completed → Total text elements ids row

/-- No execution of the job yet, or its only one. -/
inductive Tracked (s : SState) : Prop
  | fresh (hn : ∀ e x, s.execs e = some x → x.job ≠ job) (hj : s.jobs.get job = none)
      (hi : jobIds s.pool.items job = [])
  | begun {e : ExecId} {x : Execution} {row : JobRow} (hx : s.execs e = some x)
      (hj : x.job = job) (hu : ∀ e' x', s.execs e' = some x' → x'.job = job → e' = e)
      (hr : s.jobs.get job = some row)
      (hp : Progress text elements (jobIds s.pool.items job) row x.pc)

variable {text job elements}

theorem Progress.total {ids : List String} {row : JobRow} {pc : Pc}
    (h : Progress text elements ids row pc) (hs : row.state = .running ∨ row.state = .completed) :
    Total text elements ids row := by
  cases pc with
  | created => rcases hs with hs | hs <;> rw [h.1] at hs <;> cases hs
  | ingesting => rcases hs with hs | hs <;> rw [h.1] at hs <;> cases hs
  | ingested => exact h.2
  | starting => exact h.2
  | running => exact h.2
  | gathered => exact h.2
  | finished => exact h.2
  | failing => exact h hs
  | failed => exact h hs
  | raised => exact h hs
  | dead => exact h hs

/-- The total and the ids of the job stay, and so does `Progress` at an end. -/
theorem Progress.ended {ids : List String} {row : JobRow} {pc pc' : Pc}
    (h : Progress text elements ids row pc)
    (he : (∃ msg, pc' = .failing msg) ∨ pc'.ended = true ∧ pc' ≠ .finished) :
    Progress text elements ids row pc' := by
  cases pc' with
  | failing | failed | raised | dead => exact h.total
  | finished =>
    rcases he with ⟨_, he⟩ | ⟨-, he⟩
    · cases he
    · exact absurd rfl he
  | _ => rcases he with ⟨_, he⟩ | ⟨he, -⟩ <;> cases he

/-! ## The steps -/

/-- What a step has to keep. -/
theorem Tracked.next {s v : SState} (ht : Tracked text job elements s)
    (hback : ∀ e x', v.execs e = some x' → x'.job = job →
      ∃ x, s.execs e = some x ∧ x.job = job)
    (hfresh : (∀ e x, s.execs e = some x → x.job ≠ job) →
      v.jobs.get job = s.jobs.get job ∧ jobIds v.pool.items job = jobIds s.pool.items job)
    (hbegun : ∀ e x row, s.execs e = some x → x.job = job → s.jobs.get job = some row →
      Progress text elements (jobIds s.pool.items job) row x.pc →
      ∃ x' row', v.execs e = some x' ∧ x'.job = job ∧ v.jobs.get job = some row' ∧
        Progress text elements (jobIds v.pool.items job) row' x'.pc) :
    Tracked text job elements v := by
  cases ht with
  | fresh hn hj hi =>
    obtain ⟨h1, h2⟩ := hfresh hn
    refine .fresh (fun e x' hx' he => ?_) (h1.trans hj) (h2.trans hi)
    obtain ⟨x, hx, hxj⟩ := hback e x' hx' he
    exact hn e x hx hxj
  | @begun e x row hx hj hu hr hp =>
    obtain ⟨x', row', hx', hj', hr', hp'⟩ := hbegun e x row hx hj hr hp
    refine .begun hx' hj' (fun y z hz hzj => ?_) hr' hp'
    obtain ⟨z₀, hz₀, hzj₀⟩ := hback y z hz hzj
    exact hu y z₀ hz₀ hzj₀

/-- One execution moves. -/
theorem Tracked.setExec {s u : SState} {e : ExecId} {x x' : Execution}
    (ht : Tracked text job elements s) (hu : u.execs = s.execs) (hx : s.execs e = some x)
    (hj : x'.job = x.job)
    (hother : x.job ≠ job →
      u.jobs.get job = s.jobs.get job ∧ jobIds u.pool.items job = jobIds s.pool.items job)
    (hself : x.job = job → ∀ row, s.jobs.get job = some row →
      Progress text elements (jobIds s.pool.items job) row x.pc → ∃ row',
        u.jobs.get job = some row' ∧
          Progress text elements (jobIds u.pool.items job) row' x'.pc) :
    Tracked text job elements (u.setExec e x') := by
  have hsame : (u.setExec e x').execs e = some x' := by simp [SState.setExec]
  refine ht.next (fun y z hz hzj => ?_) (fun hn => hother (hn e x hx))
    fun y z row hz hzj hr hp => ?_
  · rcases of_setExec hz with ⟨rfl, rfl⟩ | ⟨-, hz⟩
    · exact ⟨x, hx, hj.symm.trans hzj⟩
    · exact ⟨z, hu ▸ hz, hzj⟩
  · by_cases hxj : x.job = job
    · cases ht with
      | fresh hn => exact absurd hxj (hn e x hx)
      | begun _ _ hone =>
        obtain rfl : y = e := (hone y z hz hzj).trans (hone e x hx hxj).symm
        rw [hx] at hz
        cases hz
        obtain ⟨row', hr', hp'⟩ := hself hxj row hr hp
        exact ⟨x', row', hsame, hj.trans hxj, hr', hp'⟩
    · have hne : y ≠ e := by
        rintro rfl
        rw [hx] at hz
        cases hz
        exact hxj hzj
      obtain ⟨h1, h2⟩ := hother hxj
      refine ⟨z, row, ?_, hzj, h1.trans hr, h2 ▸ hp⟩
      simp only [SState.setExec, if_neg hne, hu, hz]

/-- An execution of another job appears. -/
theorem Tracked.otherJob {s v : SState} (ht : Tracked text job elements s)
    (hold : ∀ e x, s.execs e = some x → v.execs e = some x)
    (hnew : ∀ e x, v.execs e = some x → s.execs e = some x ∨ x.job ≠ job)
    (hg : v.jobs.get job = s.jobs.get job)
    (hi : jobIds v.pool.items job = jobIds s.pool.items job) :
    Tracked text job elements v := by
  refine ht.next (fun e x hx hj => ?_) (fun _ => ⟨hg, hi⟩) fun e x row hx hj hr hp => ?_
  · rcases hnew e x hx with h | h
    · exact ⟨x, h, hj⟩
    · exact absurd hj h
  · exact ⟨x, row, hold e x hx, hj, hg.trans hr, hi ▸ hp⟩

variable {s v : SState} {l : SAct}

theorem Tracked.newExec {u : SState} {e : ExecId} {x : Execution}
    (ht : Tracked text job elements s) (hu : u.execs = s.execs) (hfree : s.execs e = none)
    (hj : x.job ≠ job) (hg : u.jobs.get job = s.jobs.get job)
    (hi : jobIds u.pool.items job = jobIds s.pool.items job) :
    Tracked text job elements (u.setExec e x) := by
  refine ht.otherJob (fun y z hz => ?_) (fun y z hz => ?_) hg hi
  · have hne : y ≠ e := by
      rintro rfl
      rw [hfree] at hz
      cases hz
    simp only [SState.setExec, if_neg hne, hu, hz]
  · rcases of_setExec hz with ⟨-, rfl⟩ | ⟨-, hz⟩
    · exact .inr hj
    · exact .inl (hu ▸ hz)

/-- The first execution of the job. -/
theorem Tracked.begin {e : ExecId} {inputPath : String} {model : Option String}
    {settings : Settings} {jobs : Jobs} (ht : Tracked text job elements s)
    (hj : s.jobs.create (newJob job inputPath model settings) = some jobs) :
    Tracked text job elements ({ s with jobs }.setExec e (newExecution job settings)) := by
  cases ht with
  | begun _ _ _ hrow =>
    have hnone : s.jobs.get job = none := Jobs.get_of_create hj
    rw [hnone] at hrow
    cases hrow
  | fresh hn _ hi =>
    have hrow : jobs.get job = some (newJob job inputPath model settings) :=
      (Jobs.get_create hj job).trans (if_pos rfl)
    refine .begun (e := e) (x := newExecution job settings) (by simp [SState.setExec]) rfl
      (fun y z hz hzj => ?_) hrow ⟨rfl, hi⟩
    rcases of_setExec hz with ⟨rfl, -⟩ | ⟨-, hz⟩
    · rfl
    · exact absurd hzj (hn y z hz)

/-- The new state of a job row that an execution of `x.job` updates. -/
theorem Tracked.update {e : ExecId} {x : Execution} {pc : Pc} {f : JobRow → JobRow}
    {hf : ∀ r, (f r).id = r.id} (ht : Tracked text job elements s) (hx : s.execs e = some x)
    (hp : x.job = job → ∀ row, Progress text elements (jobIds s.pool.items job) row x.pc →
      Progress text elements (jobIds s.pool.items job) (f row) pc) :
    Tracked text job elements ({ s with jobs := s.jobs.update x.job f hf }.setPc e x pc) := by
  refine ht.setExec (u := { s with jobs := s.jobs.update x.job f hf }) rfl hx rfl
    (fun hne => ⟨Jobs.get_update_ne hne _ _ hf, rfl⟩) ?_
  rintro rfl row hr hprog
  exact ⟨f row, Jobs.get_update_self hr _ hf, hp rfl row hprog⟩

/-- An execution moves by itself. -/
theorem Tracked.move {e : ExecId} {x : Execution} {pc : Pc} (ht : Tracked text job elements s)
    (hx : s.execs e = some x)
    (hp : ∀ row, Progress text elements (jobIds s.pool.items job) row x.pc →
      Progress text elements (jobIds s.pool.items job) row pc) :
    Tracked text job elements (s.setPc e x pc) :=
  ht.setExec rfl hx rfl (fun _ => ⟨rfl, rfl⟩) fun _ row hr h => ⟨row, hr, hp row h⟩

theorem except_ended (x : Execution) (msg : String) :
    (∃ m, x.except msg = .failing m) ∨
      (x.except msg).ended = true ∧ x.except msg ≠ .finished := by
  unfold Execution.except
  split
  · exact .inr ⟨rfl, nofun⟩
  · exact .inl ⟨msg, rfl⟩

theorem Tracked.stopExecs {es : List ExecId} {p : PState} (ht : Tracked text job elements s)
    (hi : jobIds p.items job = jobIds s.pool.items job) :
    Tracked text job elements ({ s with pool := p }.stopExecs es) := by
  refine ht.next (fun e x' hx' hj => ?_) (fun _ => ⟨rfl, hi⟩) fun e x row hx hj hrow hprog => ?_
  · simp only [SState.stopExecs] at hx'
    split at hx'
    · obtain ⟨x, hx, rfl⟩ := Option.map_eq_some_iff.mp hx'
      exact ⟨x, hx, by rw [← hj]; split <;> rfl⟩
    · exact ⟨x', hx', hj⟩
  · rw [← hi] at hprog
    by_cases he : e ∈ es
    · by_cases hend : x.pc.ended = true
      · exact ⟨x, row, by simp [SState.stopExecs, he, hx, hend], hj, hrow, hprog⟩
      · exact ⟨{ x with pc := .dead }, row, by simp [SState.stopExecs, he, hx, hend], hj, hrow,
          hprog.ended (.inr ⟨rfl, by simp⟩)⟩
    · exact ⟨x, row, by simp [SState.stopExecs, he, hx], hj, hrow, hprog⟩

theorem tracked_step (hr : (system text).Reachable s) (ht : Tracked text job elements s)
    (hc : Single job elements s l) (hst : (system text).step s l v) :
    Tracked text job elements v := by
  have hpool := pool_reachable hr
  cases change_of_step hst with
  | @submit e job' inputPath model settings jobs hfree hj =>
    by_cases hjob : job' = job
    · subst hjob
      exact ht.begin hj
    · exact ht.newExec (u := { s with jobs }) rfl hfree hjob
        ((Jobs.get_create hj job).trans (if_neg hjob)) rfl
  | @resume es settings hlen hn hfree =>
    refine ht.otherJob (fun y x hx => ?_) (fun y x hx => ?_) rfl rfl
    · simp only
      split
      · rename_i hl
        rw [hfree y (mem_zip_lookup hl).1] at hx
        cases hx
      · exact hx
    · simp only at hx
      split at hx
      · rename_i hl
        cases hx
        exact .inr (hc _ (mem_zip_lookup hl).2)
      · exact .inl hx
  | runWorker hfree => exact ht.newExec rfl hfree hc rfl rfl
  | @setIngesting e x elements' hx hp =>
    refine ht.update hx fun hj row hprog => ?_
    obtain rfl := hc x hx hj
    rw [hp] at hprog
    refine ⟨rfl, (ingestLoop_counters text _ _).1, fun id => ?_⟩
    simp only [hprog.2, List.not_mem_nil, false_or]
    exact mem_callIds_ingest _ _ id
  | @flush e x b rest total p hx hp hstep =>
    refine ht.setExec (u := { s with pool := p }) rfl hx rfl (fun hne => ⟨rfl, ?_⟩) ?_
    · refine jobIds_frame hpool hstep fun items failed he => ?_
      cases he
      exact hne rfl
    · rintro rfl row hrow hprog
      rw [hp] at hprog
      refine ⟨row, hrow, hprog.1, hprog.2.1, fun id => ?_⟩
      have hids := hprog.2.2 id
      rw [callIds, List.flatMap_cons, List.mem_append, ← or_assoc] at hids
      rw [mem_jobIds_insert hpool hstep]
      exact hids
  | @setTotal e x total hx hp =>
    refine ht.update hx fun _ row hprog => ?_
    rw [hp] at hprog
    refine ⟨hprog.1, hprog.2.1, fun id => ?_⟩
    have hids := hprog.2.2 id
    rw [callIds, List.flatMap_nil] at hids
    simpa using hids
  | setRunning hx hp =>
    refine ht.update hx fun _ row hprog => ?_
    rw [hp] at hprog
    exact ⟨rfl, hprog.2.total, hprog.2.ids⟩
  | @engineStart e x ws p hx hp hlen hn hstep =>
    have hi : jobIds p.items job = jobIds s.pool.items job :=
      jobIds_frame hpool hstep (by simp)
    refine ht.setExec (u := { s with pool := p }) rfl hx rfl (fun _ => ⟨rfl, hi⟩) ?_
    intro _ row hrow hprog
    rw [hp] at hprog
    exact ⟨row, hrow, hi ▸ hprog⟩
  | gathered hx hp =>
    refine ht.move hx fun row hprog => ?_
    rw [hp] at hprog
    exact hprog
  | setCompleted hx hp =>
    refine ht.update hx fun _ row hprog => ?_
    rw [hp] at hprog
    exact ⟨rfl, hprog.2.total, hprog.2.ids⟩
  | @gatherRaises e x w msg hx | @raise e x msg hx =>
    exact ht.move hx fun row hprog => hprog.ended (except_ended x msg)
  | handlerRaises hx =>
    exact ht.move hx fun row hprog => hprog.ended (.inr ⟨rfl, by simp⟩)
  | setFailed hx =>
    refine ht.update hx fun _ row _ => ?_
    rintro (h | h) <;> cases h
  | crash hstep => exact ht.stopExecs (jobIds_frame hpool hstep (by simp))
  | @worker a p ha hstep =>
    refine ht.otherJob (fun _ _ hx => hx) (fun _ _ hx => .inl hx) rfl ?_
    refine jobIds_frame hpool hstep ?_
    rintro items failed rfl
    cases ha

theorem tracked_reachable (h : ((system text).restrict (Single job elements)).Reachable s) :
    Tracked text job elements s := by
  refine h.induct (I := Tracked text job elements) ?_ ?_
  · rintro _ ⟨now, rfl⟩
    exact .fresh (fun e x hx => nomatch hx) rfl rfl
  · intro s l v hr ht hst
    exact tracked_step hr.of_restrict ht hst.2 hst.1

/-- **The total is the number of rows**, in every RUNNING or COMPLETED state of
the single execution of a job, exactly if the external ids of the elements are
distinct. -/
theorem total_conserved_iff (h : ((system text).restrict (Single job elements)).Reachable s)
    {st : JobStatus} (hst : s.jobs.getStatus s.pool.items job = some st)
    (hs : st.state = .running ∨ st.state = .completed) :
    st.total = st.pending + st.inProgress + st.succeeded + st.failed ↔
      (fileIds text elements).Nodup := by
  obtain ⟨row, hrow, rfl⟩ := Option.map_eq_some_iff.mp hst
  have hcounts := counts_sum s.pool.items job
  have hlen : (fileIds text elements).length = elements.length := by simp [fileIds]
  cases tracked_reachable h with
  | fresh _ hj =>
    rw [hj] at hrow
    cases hrow
  | begun hx hj hu hr hp =>
    rw [hr] at hrow
    cases hrow
    have htotal := hp.total hs
    have hiff := length_eq_iff_nodup (jobIds_nodup s.pool.items job) htotal.ids
    rw [hlen] at hiff
    rw [← hiff]
    show row.totalItems = _ ↔ _
    rw [htotal.total, hcounts]

end progress

/-! ## Non-vacuity -/

/-- A file of one prompt and one element that is not an object. -/
def fileMixed : List Json := [.obj [("id", .str "a"), ("prompt", .str "hi")], .null]

/-- A file of two prompts with one id. -/
def fileTwice : List Json :=
  [.obj [("id", .str "a"), ("prompt", .str "hi")], .obj [("id", .str "a"), ("prompt", .str "ho")]]

/-- A job up to RUNNING. -/
def ingestRun (elements : List Json) : List SAct :=
  [.submit 0 "j" "in.json" none oneWorker, .setIngesting 0 elements, .flush 0, .setTotal 0,
    .setRunning 0]

theorem single_ingestRun (elements : List Json) : ∀ l ∈ ingestRun elements, ∀ s,
    Single "j" elements s l := by
  simp [ingestRun, Single]

/-- The total counts both elements of `fileTwice`, and one of them has a row. -/
theorem total_not_conserved : ¬ ∀ elements s,
    ((system noText).restrict (Single "j" elements)).Reachable s → ∀ st,
      s.jobs.getStatus s.pool.items "j" = some st → st.state = .running ∨ st.state = .completed →
      st.total = st.pending + st.inProgress + st.succeeded + st.failed := by
  intro h
  obtain ⟨⟨tr, s⟩, he, hs⟩ : ∃ p, LTS.exec (sysStep noText) (.init 0) (ingestRun fileTwice) =
      some p ∧ p.2.jobs.getStatus p.2.pool.items "j" = some ⟨"j", .running, 2, 1, 0, 0, 0⟩ :=
    ⟨_, rfl, by decide +kernel⟩
  have hr : ((system noText).restrict (Single "j" fileTwice)).Run tr s :=
    LTS.restrict_of_exec ⟨0, rfl⟩ he (single_ingestRun fileTwice)
  have := h fileTwice s hr.reachable _ hs (.inl rfl)
  exact absurd this (by decide)

theorem total_conserved_mixed : ∃ s st,
    ((system noText).restrict (Single "j" fileMixed)).Reachable s ∧
      s.jobs.getStatus s.pool.items "j" = some st ∧ st.state = .running ∧ st.total = 2 ∧
      st.total = st.pending + st.inProgress + st.succeeded + st.failed := by
  obtain ⟨⟨tr, s⟩, he, hs⟩ : ∃ p, LTS.exec (sysStep noText) (.init 0) (ingestRun fileMixed) =
      some p ∧ p.2.jobs.getStatus p.2.pool.items "j" = some ⟨"j", .running, 2, 1, 0, 0, 1⟩ :=
    ⟨_, rfl, by decide +kernel⟩
  have hr : ((system noText).restrict (Single "j" fileMixed)).Run tr s :=
    LTS.restrict_of_exec ⟨0, rfl⟩ he (single_ingestRun fileMixed)
  refine ⟨s, _, hr.reachable, hs, rfl, rfl, ?_⟩
  exact (total_conserved_iff hr.reachable hs (.inl rfl)).mpr (by decide +kernel)

end BatchSystem.Service
