import BatchSystem.Engine.Recovery
import BatchSystem.Service.Restart

/-!
# A restart can finish every active job

`resume_active` schedules an execution for each INGESTING or RUNNING job. From
every reachable state the execution of such a job can go all the way by its own
steps: it ingests the file again, its workers wait until the old leases have run
out, and the job is COMPLETED with every row finished (`resumable`).

* `flushes`: the ingest of an execution up to its last `bulk_insert`.
* `pool_path`: a path of the worker pool by workers and clock is one of the
  system.
-/
namespace BatchSystem.Service

open BatchSystem.Core Domain Queue Engine Ingest

/-- The steps of execution `e` and its workers `ws`, without a failure, and the
clock. -/
def SAct.drives (e : ExecId) (ws : List WorkerId) : SAct → Prop
  | .setIngesting e' _ | .flush e' | .setTotal e' | .setRunning e' | .gathered e'
  | .setCompleted e' => e' = e
  | .engineStart e' ws' => e' = e ∧ ws' = ws
  | .worker a => (∃ d, a = .tick d) ∨ ∃ w ∈ ws, a.loops w = true
  | _ => False

theorem get_setState {t : Jobs} {job : JobId} {row : JobRow} (h : t.get job = some row)
    (state : JobState) (error : Option String) :
    (t.setState job state error).get job = some { row with state, error } :=
  Jobs.get_update_self h _ _

theorem get_setTotal {t : Jobs} {job : JobId} {row : JobRow} (h : t.get job = some row)
    (total : Nat) : (t.setTotal job total).get job = some { row with totalItems := total } :=
  Jobs.get_update_self h _ _

section paths
variable {text : Json → String} {s : SState}

theorem byWorker_of_loops {w : WorkerId} {a : Act} (h : a.loops w = true) : byWorker a = true := by
  cases a <;> first | rfl | cases h

variable (text) in
/-- The steps of the workers leave jobs and executions alone. -/
theorem pool_path {p q : PState} {tr : List (Trans PState Act)} (hp : pool.Path p tr q)
    (hb : ∀ t ∈ tr, byWorker t.lbl = true) (hs : s.pool = p) :
    ∃ tr', (system text).Path s tr' { s with pool := q } ∧
      ∀ t' ∈ tr', ∃ t ∈ tr, t'.lbl = .worker t.lbl := by
  subst hs
  induction hp with
  | nil => exact ⟨[], .nil, by simp⟩
  | @snoc tr u v l hp hst ih =>
    obtain ⟨tr', hp', hl⟩ := ih fun t ht => hb t (List.mem_append_left _ ht)
    have hbl := hb _ (List.mem_append_right _ List.mem_cons_self)
    refine ⟨_, hp'.snoc (l := .worker l) (v := { s with pool := v }) ?_, fun t' ht' => ?_⟩
    · show sysStep text { s with pool := u } (.worker l) = _
      simp only [sysStep, if_pos hbl]
      rw [show Engine.step u l = some v from hst]
      rfl
    · rcases List.mem_append.mp ht' with ht' | ht'
      · obtain ⟨t, ht, he⟩ := hl t' ht'
        exact ⟨t, List.mem_append_left _ ht, he⟩
      · rw [List.mem_singleton] at ht'
        subst ht'
        exact ⟨_, List.mem_append_right _ List.mem_cons_self, rfl⟩

/-- The table after `bulk_insert` calls for a job. -/
def afterInserts (t : PromptItems) (job : JobId) (bs : List (List PromptItem × List ResultRecord)) :
    PromptItems :=
  bs.foldl (fun t b => (bulkInsert t job b.1 b.2).1) t

theorem mem_afterInserts {job : JobId} {bs : List (List PromptItem × List ResultRecord)}
    {t : PromptItems} {r : ItemRow} (h : r ∈ t.rows) : r ∈ (afterInserts t job bs).rows := by
  induction bs generalizing t with
  | nil => exact h
  | cons b bs ih =>
    refine ih ?_
    rw [bulkInsert_rows]
    exact List.mem_append_left _ h

theorem flushes {e : ExecId} {x : Execution} {total : Nat} (ws : List WorkerId)
    {rest : List (List PromptItem × List ResultRecord)}
    (hx : s.execs e = some { x with pc := .ingesting rest total }) :
    ∃ tr v, (system text).Path s tr v ∧ (∀ t ∈ tr, t.lbl.drives e ws) ∧
      v.execs e = some { x with pc := .ingesting [] total } ∧ v.jobs = s.jobs ∧
      v.pool = { s.pool with items := afterInserts s.pool.items x.job rest } := by
  induction rest generalizing s with
  | nil => exact ⟨[], s, .nil, by simp, hx, rfl, rfl⟩
  | cons b rest ih =>
    obtain ⟨u, hst, hx', hjobs, hpool⟩ : ∃ u, (system text).step s (.flush e) u ∧
        u.execs e = some { x with pc := .ingesting rest total } ∧ u.jobs = s.jobs ∧
        u.pool = { s.pool with items := (bulkInsert s.pool.items x.job b.1 b.2).1 } := by
      refine ⟨SState.setPc
        { s with pool := { s.pool with items := (bulkInsert s.pool.items x.job b.1 b.2).1 } } e x
        (.ingesting rest total), ?_, if_pos rfl, rfl, rfl⟩
      show sysStep text s _ = _
      simp only [sysStep, hx, Option.bind_some]
      rfl
    obtain ⟨tr, v, hp, hl, hv, hj, hq⟩ := ih hx'
    refine ⟨_, v, .cons hst hp, fun t ht => ?_, hv, hj.trans hjobs, ?_⟩
    · rcases List.mem_cons.mp ht with rfl | ht
      · rfl
      · exact hl t ht
    · rw [hq, hpool]
      rfl

/-- The execution of a job up to the start of its workers. -/
theorem prepared {e : ExecId} {job : JobId} {settings : Settings} (ws : List WorkerId)
    (hx : s.execs e = some (newExecution job settings)) {row : JobRow}
    (hrow : s.jobs.get job = some row) (elements : List Json) :
    let st := ingestLoop text (buildValidationPipeline settings) elements
    ∃ tr v, (system text).Path s tr v ∧ (∀ t ∈ tr, t.lbl.drives e ws) ∧
      v.execs e = some { newExecution job settings with pc := .starting } ∧
      (∃ row', v.jobs.get job = some row' ∧ row'.totalItems = st.total) ∧
      v.pool = { s.pool with items := afterInserts s.pool.items job st.flushed } := by
  intro st
  obtain ⟨u, hst₁, hx₁, hrow₁, hp₁⟩ : ∃ u, (system text).step s (.setIngesting e elements) u ∧
      u.execs e = some { newExecution job settings with pc := .ingesting st.flushed st.total } ∧
      (∃ row', u.jobs.get job = some row') ∧ u.pool = s.pool := by
    refine ⟨SState.setPc { s with jobs := s.jobs.setState job .ingesting none } e
      (newExecution job settings) (.ingesting st.flushed st.total), ?_, if_pos rfl,
      ⟨_, get_setState hrow .ingesting none⟩, rfl⟩
    show sysStep text s _ = _
    simp only [sysStep, hx, Option.bind_some, newExecution]
    rfl
  obtain ⟨tr, q, hp, hl, hx₂, hj₂, hp₂⟩ := flushes ws hx₁
  obtain ⟨row₂, hrow₂⟩ : ∃ row', q.jobs.get job = some row' := hj₂ ▸ hrow₁
  obtain ⟨z, hst₃, hx₃, ⟨row₃, hrow₃, htotal⟩, hp₃⟩ : ∃ z, (system text).step q (.setTotal e) z ∧
      z.execs e = some { newExecution job settings with pc := .ingested } ∧
      (∃ row', z.jobs.get job = some row' ∧ row'.totalItems = st.total) ∧ z.pool = q.pool := by
    refine ⟨SState.setPc { q with jobs := q.jobs.setTotal job st.total } e
      (newExecution job settings) .ingested, ?_, if_pos rfl,
      ⟨_, get_setTotal hrow₂ st.total, rfl⟩, rfl⟩
    show sysStep text q _ = _
    simp only [sysStep, hx₂, Option.bind_some, newExecution]
    rfl
  obtain ⟨v, hst₄, hx₄, hrow₄, hp₄⟩ : ∃ v, (system text).step z (.setRunning e) v ∧
      v.execs e = some { newExecution job settings with pc := .starting } ∧
      (∃ row', v.jobs.get job = some row' ∧ row'.totalItems = st.total) ∧ v.pool = z.pool := by
    refine ⟨SState.setPc { z with jobs := z.jobs.setState job .running none } e
      (newExecution job settings) .starting, ?_, if_pos rfl,
      ⟨_, get_setState hrow₃ .running none, htotal⟩, rfl⟩
    show sysStep text z _ = _
    simp only [sysStep, hx₃, Option.bind_some, newExecution]
    rfl
  refine ⟨_, v, .cons hst₁ ((hp.snoc hst₃).snoc hst₄), fun t ht => ?_, hx₄, hrow₄, ?_⟩
  · simp only [List.mem_cons, List.mem_append, List.not_mem_nil, or_false] at ht
    rcases ht with rfl | (ht | rfl) | rfl
    · rfl
    · exact hl t ht
    · rfl
    · rfl
  · rw [hp₄, hp₃, hp₂, hp₁]
    rfl

/-- The execution from the start of its workers to COMPLETED. -/
theorem finished (hr : (system text).Reachable s) {e : ExecId} {x : Execution}
    (hx : s.execs e = some x) (hp : x.pc = .starting) {row : JobRow}
    (hrow : s.jobs.get x.job = some row) {ws : List WorkerId}
    (hlen : ws.length = x.settings.workerPoolSize) (hn : ws.Nodup)
    (hfresh : ∀ w ∈ ws, s.pool.workers w = none) (hpool : 1 ≤ x.settings.workerPoolSize)
    (hsize : 1 ≤ x.settings.chunkSize) (client : Nat → Nat → Outcome) :
    ∃ tr v, (system text).Path s tr v ∧ (∀ t ∈ tr, t.lbl.drives e ws) ∧
      v.jobs.get x.job = some { row with state := .completed, error := none } ∧
      List.Forall₂ (Engine.Drained x.job x.settings client s.pool.now) s.pool.items.rows
        v.pool.items.rows := by
  obtain ⟨p, hstart, hws, hitems, hnow⟩ : ∃ p,
      Engine.step s.pool (.start ws x.job x.settings) = some p ∧
      (∀ w ∈ ws, p.workers w = some { job := x.job, settings := x.settings }) ∧
      p.items = s.pool.items ∧ p.now = s.pool.now :=
    ⟨_, if_pos hfresh, fun w hw => if_pos hw, rfl, rfl⟩
  obtain ⟨u, hst₁, hx₁, hj₁, hp₁⟩ : ∃ u, (system text).step s (.engineStart e ws) u ∧
      u.execs e = some { x with pc := .running, workers := ws } ∧ u.jobs = s.jobs ∧
      u.pool = p := by
    refine ⟨SState.setExec { s with pool := p } e { x with pc := .running, workers := ws }, ?_,
      if_pos rfl, rfl, rfl⟩
    show sysStep text s _ = _
    simp only [sysStep, hx, Option.bind_some, hp, hlen, hn, and_self, if_true, hstart,
      Option.map_some]
  have hne : ws ≠ [] := by
    intro h
    rw [h, List.length_nil] at hlen
    omega
  have hr₁ := hr.step hst₁
  obtain ⟨tr, q, hq, hl, hleft, hrows⟩ := crew_drains hsize client (pool_reachable hr₁) hne hn
    (hp₁ ▸ hws)
  obtain ⟨tr', hq', hl'⟩ := pool_path text hq (fun t ht => by
    obtain ⟨w, -, hw⟩ := hl t ht
    exact byWorker_of_loops hw) rfl
  obtain ⟨z, hst₂, hx₂, hj₂, hp₂⟩ : ∃ z,
      (system text).step { u with pool := q } (.gathered e) z ∧
      z.execs e = some { x with pc := .gathered, workers := ws } ∧ z.jobs = u.jobs ∧
      z.pool = q := by
    refine ⟨SState.setPc { u with pool := q } e { x with pc := .running, workers := ws } .gathered,
      ?_, if_pos rfl, rfl, rfl⟩
    have hall : ws.all (hasLeft q) = true :=
      List.all_eq_true.mpr fun w hw => hasLeft_iff.mpr (hleft w hw)
    show sysStep text { u with pool := q } _ = _
    simp only [sysStep, hx₁, Option.bind_some, hall, if_true]
  obtain ⟨v, hst₃, hj₃, hp₃⟩ : ∃ v, (system text).step z (.setCompleted e) v ∧
      v.jobs = z.jobs.setState x.job .completed none ∧ v.pool = z.pool := by
    refine ⟨SState.setPc { z with jobs := z.jobs.setState x.job .completed none } e
      { x with pc := .gathered, workers := ws } .finished, ?_, rfl, rfl⟩
    show sysStep text z _ = _
    simp only [sysStep, hx₂, Option.bind_some]
  refine ⟨_, v, .cons hst₁ ((hq'.snoc hst₂).snoc hst₃), fun t ht => ?_, ?_, ?_⟩
  · simp only [List.mem_cons, List.mem_append, List.not_mem_nil, or_false] at ht
    rcases ht with rfl | (ht | rfl) | rfl
    · exact ⟨rfl, rfl⟩
    · obtain ⟨t', ht', he⟩ := hl' t ht
      rw [he]
      exact .inr (hl t' ht')
    · rfl
    · rfl
  · rw [hj₃, hj₂, hj₁]
    exact get_setState hrow .completed none
  · rw [hp₃, hp₂, ← hitems, ← hnow, ← hp₁]
    exact hrows

/-! ## From any state -/

/-- Each entry of the file has a row after the ingest. -/
theorem afterInserts_entries {rules : List ValidationRule} (t : PromptItems) (job : JobId)
    {elements : List Json} {e : Entry} (he : e ∈ entries text rules elements) :
    ∃ r ∈ (afterInserts t job (ingestLoop text rules elements).flushed).rows,
      r.key = (job, e.externalId) := by
  obtain ⟨bs, hb, hf⟩ := ingestLoop_batches text rules elements
  rw [← hb.flatten_eq] at he
  by_cases hold : (job, e.externalId) ∈ t.rows.map ItemRow.key
  · obtain ⟨r, hr, hk⟩ := List.mem_map.mp hold
    exact ⟨r, mem_afterInserts hr, hk⟩
  · have hnew := mem_firstWins_keys.mpr ⟨hold, candidates_key job he⟩
    obtain ⟨c, hc, hk⟩ := List.mem_map.mp hnew
    have hrows := foldl_bulkInsert_rows job bs t
    have hin : c ∈ (afterInserts t job (ingestLoop text rules elements).flushed).rows.map
        ItemRow.content := by
      rw [afterInserts, hf, hrows]
      exact List.mem_append_right _ hc
    obtain ⟨r, hr, rfl⟩ := List.mem_map.mp hin
    exact ⟨r, hr, hk⟩

theorem exists_new_execs (hr : (system text).Reachable s) (n : Nat) :
    ∃ es : List ExecId, es.length = n ∧ es.Nodup ∧ ∀ e ∈ es, s.execs e = none := by
  obtain ⟨tr, hrun⟩ := hr
  obtain ⟨es, hlen, hn, hnew⟩ := exists_fresh_list (tr.flatMap fun t => createdBy t.lbl) n
  refine ⟨es, hlen, hn, fun e he => Option.eq_none_iff_forall_not_mem.mpr fun x hx => ?_⟩
  exact hnew e he (created_run hrun e x hx)

theorem exists_new_workers {p : PState} (hr : pool.Reachable p) (n : Nat) :
    ∃ ws : List WorkerId, ws.length = n ∧ ws.Nodup ∧ ∀ w ∈ ws, p.workers w = none := by
  obtain ⟨tr, hrun⟩ := hr
  obtain ⟨ws, hlen, hn, hnew⟩ := exists_fresh_list (started tr) n
  refine ⟨ws, hlen, hn, fun w hw => Option.eq_none_iff_forall_not_mem.mpr fun k hk => ?_⟩
  exact hnew w hw (started_run hrun w k hk)

/-- **A restart can finish every active job.** From every reachable state,
whatever has crashed and whatever leases are held, and for every file: after
`resume_active` the execution that it schedules for an INGESTING or RUNNING job can
run to its end by its own steps and those of its workers, the clock apart. Then the
job is COMPLETED with the size of the file as its total; each element of the file
has a row, no row of the job is unfinished, and each row that was unfinished at the
restart has the outcome of `_process_row`, all others being as they were. -/
theorem resumable (hr : (system text).Reachable s) {job : JobId} {row : JobRow}
    (hrow : s.jobs.get job = some row) (ha : row.state = .ingesting ∨ row.state = .running)
    {settings : Settings} (hpool : 1 ≤ settings.workerPoolSize) (hsize : 1 ≤ settings.chunkSize)
    (elements : List Json) (client : Nat → Nat → Outcome) :
    ∃ es e ws u tr v, (system text).step s (.resume es settings) u ∧ e ∈ es ∧
      u.execs e = some (newExecution job settings) ∧ (system text).Path u tr v ∧
      (∀ t ∈ tr, t.lbl.drives e ws) ∧
      (∃ row', v.jobs.get job = some row' ∧ row'.state = .completed ∧
        row'.totalItems = elements.length) ∧
      (∀ r ∈ v.pool.items.rows, r.jobId = job → r.status.terminal = true) ∧
      (∀ en ∈ entries text (buildValidationPipeline settings) elements,
        ∃ r ∈ v.pool.items.rows, r.jobId = job ∧ r.externalId = en.externalId) ∧
      ∀ r ∈ s.pool.items.rows, ∃ r' ∈ v.pool.items.rows,
        if r.jobId = job ∧ r.status.terminal = false then Processed settings client r r'
        else r' = r := by
  obtain ⟨es, hlen, hn, hnew⟩ := exists_new_execs hr s.jobs.listActive.length
  obtain ⟨ws, hwlen, hwn, hwnew⟩ := exists_new_workers (pool_reachable hr) settings.workerPoolSize
  obtain ⟨u, hst, hjobs, hp⟩ : ∃ u, (system text).step s (.resume es settings) u ∧
      u.jobs = s.jobs ∧ u.pool = s.pool := ⟨_, if_pos ⟨hlen, hn, hnew⟩, rfl, rfl⟩
  obtain ⟨e, hmem, hx⟩ := resume_schedules hst hrow ha
  obtain ⟨tr₁, p, hp₁, hl₁, hx₁, ⟨row₁, hrow₁, htotal⟩, hpool₁⟩ :=
    prepared ws hx (hjobs ▸ hrow) elements
  -- the leases of the old workers run out
  obtain ⟨d, hd⟩ := exists_late p.pool.items.rows p.pool.now
  obtain ⟨q, hst₂, hx₂, hj₂, hi₂, hn₂, hw₂⟩ : ∃ q,
      (system text).step p (.worker (.tick d)) q ∧ q.execs = p.execs ∧ q.jobs = p.jobs ∧
      q.pool.items = p.pool.items ∧ q.pool.now = p.pool.now + d ∧
      q.pool.workers = p.pool.workers := ⟨_, rfl, rfl, rfl, rfl, rfl, rfl⟩
  have hrp := (hr.step hst).path hp₁
  have hrq := hrp.step hst₂
  have hfree : ∀ w ∈ ws, q.pool.workers w = none := by
    rw [hw₂, hpool₁, hp]
    exact hwnew
  obtain ⟨tr₂, v, hp₂, hl₂, hj₃, hrows⟩ := finished hrq (hx₂ ▸ hx₁) rfl (hj₂ ▸ hrow₁) hwlen hwn
    hfree hpool hsize client
  -- every unfinished row of the job can be claimed then
  have hclaim : ∀ r ∈ q.pool.items.rows,
      (claimable job q.pool.now r = true ↔ r.jobId = job ∧ r.status.terminal = false) := by
    intro r hrow
    have hok := rowOk_reachable (queue_reachable (pool_reachable hrq)) r hrow
    rw [hi₂] at hrow
    rw [hn₂]
    exact claimable_late hok (hd r hrow)
  have hkeep : ∀ r ∈ q.pool.items.rows, ∃ r' ∈ v.pool.items.rows, r.SameKey r' ∧
      (if r.jobId = job ∧ r.status.terminal = false then Processed settings client r r'
        else r' = r) := by
    intro r hrow
    obtain ⟨r', hr', h⟩ := forall₂_mem_left hrows hrow
    refine ⟨r', hr', ?_⟩
    unfold Engine.Drained at h
    split at h
    · rename_i hc
      rw [if_pos ((hclaim r hrow).mp hc)]
      exact ⟨h.key, h⟩
    · rename_i hc
      rw [if_neg fun ho => hc ((hclaim r hrow).mpr ho), h]
      exact ⟨.refl r, rfl⟩
  have hold : afterInserts s.pool.items job
      (ingestLoop text (buildValidationPipeline settings) elements).flushed = q.pool.items := by
    rw [hi₂, hpool₁, hp]
  refine ⟨es, e, ws, u, _, v, hst, hmem, hx, hp₁.append (.cons hst₂ hp₂), fun t ht => ?_,
    ⟨_, hj₃, rfl, htotal.trans (ingestLoop_counters text _ elements).1⟩, fun r' hr' hj => ?_,
    fun en hen => ?_, fun r hrow => ?_⟩
  · rcases List.mem_append.mp ht with ht | ht
    · exact hl₁ t ht
    · rcases List.mem_cons.mp ht with rfl | ht
      · exact .inl ⟨d, rfl⟩
      · exact hl₂ t ht
  · obtain ⟨r, hrow, h⟩ := forall₂_mem_right hrows hr'
    unfold Engine.Drained at h
    split at h
    · exact h.terminal
    · rename_i hc
      subst h
      by_contra ht
      exact hc ((hclaim r' hrow).mpr ⟨hj, Bool.eq_false_of_not_eq_true ht⟩)
  · obtain ⟨r, hrow, hk⟩ := afterInserts_entries s.pool.items job hen
    rw [hold] at hrow
    obtain ⟨r', hr', hs, -⟩ := hkeep r hrow
    obtain ⟨-, hjob, hext, -⟩ := hs
    exact ⟨r', hr', hjob.trans (congrArg Prod.fst hk), hext.trans (congrArg Prod.snd hk)⟩
  · obtain ⟨r', hr', -, h⟩ := hkeep r (hold ▸ mem_afterInserts hrow)
    exact ⟨r', hr', h⟩

end paths

/-! ## Non-vacuity -/

/-- A process crashes with a claimed row. -/
def crashedRun (cid : Storage.ChunkId) : List SAct :=
  [.submit 0 "j" "in.json" none oneWorker, .setIngesting 0 fileA, .flush 0, .setTotal 0,
    .setRunning 0, .engineStart 0 ["w"], .worker (.claim "w" cid [⟨1, "a", "hi", 1⟩]), .crash [0]]

theorem resumable_crashed : ∃ s u v es tr, (system noText).Reachable s ∧
    s.pool.items.rows.map (·.status) = [.claimed] ∧
    (system noText).step s (.resume es oneWorker) u ∧ (system noText).Path u tr v ∧
      ∃ row, v.jobs.get "j" = some row ∧ row.state = .completed ∧ row.totalItems = 1 := by
  obtain ⟨⟨tr, s⟩, he, hst, row, hrow, hs⟩ : ∃ p,
      LTS.exec (sysStep noText) (.init 0) (crashedRun Engine.chunk1) = some p ∧
      p.2.pool.items.rows.map (·.status) = [.claimed] ∧
      ∃ row, p.2.jobs.get "j" = some row ∧ row.state = .running := ⟨_, rfl, rfl, _, rfl, rfl⟩
  have hr : (system noText).Reachable s := ⟨tr, _, ⟨0, rfl⟩, LTS.path_of_exec he⟩
  have hpool : 1 ≤ oneWorker.workerPoolSize := Nat.le_refl 1
  have hsize : 1 ≤ oneWorker.chunkSize := by decide
  obtain ⟨es, e, ws, u, tr', v, hst', -, -, hp, -, hdone, -⟩ :=
    resumable hr hrow (.inr hs) hpool hsize fileA fun _ _ => .success "ok"
  exact ⟨s, u, v, es, tr', hr, hst, hst', hp, hdone⟩

end BatchSystem.Service
