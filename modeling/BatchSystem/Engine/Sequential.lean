import BatchSystem.Engine.RunEnds

/-!
# The run computes what a sequential loop would

`EngineRun.sequential` goes through the rows one after another: it processes
each waiting row of the job with `processRow`, stores the record, and writes
status, error and attempts into the row. A run has the same effect, under every
schedule (`concurrent_eq_sequential`): up to the latencies, the same records in
the store and the same outcome of every row, after at most as many claims that
return rows as there were rows waiting.
-/
namespace BatchSystem.Engine

open BatchSystem.Core Domain Queue Storage PState

/-! ## The loop -/

/-- What `_process_row` makes of a row, at an instant. -/
def EngineRun.rowResult (e : EngineRun) (r : ItemRow) : ResultRecord :=
  (processRow e.settings (claimedItem r) (e.client r.id) 0).1

/-- One row after another: the rows and the records after the loop. -/
def EngineRun.sequential (e : EngineRun) : List ItemRow → List ItemRow × List ResultRecord
  | [] => ([], [])
  | r :: rest =>
    let done := e.sequential rest
    if e.takes r then
      let res := e.rowResult r
      ({ r with status := res.status, error := res.error, attempts := res.attempts } :: done.1,
        res :: done.2)
    else (r :: done.1, done.2)

/-- The columns that are compared. -/
def rowOutcome (r : ItemRow) : Nat × ItemStatus × Option String × Int :=
  (r.id, r.status, r.error, r.attempts)

def noLatency (res : ResultRecord) : ResultRecord := { res with latencyMs := none }

theorem processRow_latency (settings : Settings) (item : ClaimedItem) (client : Nat → Outcome)
    (a b : Int) : noLatency (processRow settings item client a).1 =
      noLatency (processRow settings item client b).1 := by
  unfold processRow
  split <;> rfl

theorem sequential_records (e : EngineRun) (rows : List ItemRow) :
    (e.sequential rows).2 = (rows.filter e.takes).map e.rowResult := by
  induction rows with
  | nil => rfl
  | cons r rest ih =>
    simp only [EngineRun.sequential, List.filter_cons]
    split
    · rw [List.map_cons, ← ih]
    · exact ih

/-! ## The effect of a run -/

/-- The run did what the loop does. -/
structure Sequential (e : EngineRun) (s₀ : PState) (s : RunState) : Prop where
  /-- One coroutine for each waiting row, with what the row was ingested with. -/
  once : (s.proc.tasks.map (·.item)).Perm ((e.pendingRows s₀).map claimedItem)
  /-- It returned, and all its requests carry the prompt of its row. -/
  prompts : ∀ τ ∈ s.proc.tasks, ∃ text st latencyMs, τ.stage = .returned text st latencyMs ∧
    ∃ r ∈ e.pendingRows s₀, r.id = τ.item.id ∧ ∀ q ∈ st.requests, r.prompt = some q.prompt
  table : s.pool.items.rows.map rowOutcome = (e.sequential s₀.items.rows).1.map rowOutcome
  records : ∃ stored : List (ChunkId × List ResultRecord),
    s.pool.files.Perm (s₀.files ++ stored.map fun c => wholeFile e.job c.1 c.2) ∧
      ((stored.flatMap (·.2)).map noLatency).Perm
        ((e.sequential s₀.items.rows).2.map noLatency)

section final
variable {e : EngineRun} {s₀ : PState} {s : RunState}

theorem AllLeft.claiming (hl : AllLeft e s) (hw : Working e s₀ s) {w : WorkerId}
    (hmem : w ∈ e.workers) {k : Worker} (hk : s.pool.workers w = some k) : k.phase = .claiming := by
  obtain ⟨k', hk', hleft⟩ := hl w hmem
  obtain rfl := Option.some.inj (hk'.symm.trans hk)
  exact left_claiming hw.reachable w k' hk hleft

/-- At the end the results of every chunk are stored. -/
theorem AllLeft.stored (hl : AllLeft e s) (hb : RunBooks e s₀ s) {τ : RowTask}
    (hτ : τ ∈ s.proc.tasks) : Stored e s τ.chunkId := by
  refine (hb.files.stored τ hτ).resolve_left ?_
  rintro ⟨w, hmem, k, hk, hopen, -⟩
  rw [hl.claiming hb.working hmem hk] at hopen
  cases hopen

theorem gathered_eq {tasks : List RowTask} {results : List ResultRecord}
    (h : gathered tasks = some results) : results = tasks.filterMap RowTask.result ∧
      ∀ τ ∈ tasks, ∃ res, τ.result = some res := by
  induction tasks generalizing results with
  | nil =>
    cases h
    exact ⟨rfl, fun τ hτ => by cases hτ⟩
  | cons τ rest ih =>
    simp only [gathered, Option.bind_eq_some_iff, Option.map_eq_some_iff] at h
    obtain ⟨res, hres, rs, hrs, rfl⟩ := h
    obtain ⟨h1, h2⟩ := ih hrs
    refine ⟨?_, fun τ' hτ' => ?_⟩
    · rw [List.filterMap_cons_some hres, h1]
    · rcases List.mem_cons.mp hτ' with rfl | hτ'
      · exact ⟨res, hres⟩
      · exact h2 τ' hτ'

/-- At the end every coroutine has returned the record of its row. -/
theorem AllLeft.returned (hl : AllLeft e s) (hb : RunBooks e s₀ s) {τ : RowTask}
    (hτ : τ ∈ s.proc.tasks) : ∃ res, τ.result = some res := by
  obtain ⟨rs, hg, -⟩ := hl.stored hb hτ
  exact (gathered_eq hg).2 τ (List.mem_filter.mpr ⟨hτ, decide_eq_true rfl⟩)

theorem pending_ids_nodup (e : EngineRun) (s₀ : PState) :
    ((e.pendingRows s₀).map ItemRow.id).Nodup := by
  have hn : (s₀.items.rows.map ItemRow.id).Nodup :=
    List.pairwise_map.mpr (s₀.items.idsSorted.imp fun h => Nat.ne_of_lt h)
  exact (List.filter_sublist.map _).nodup hn

/-- Some worker has left, so no row waits any more. -/
theorem AllLeft.taken (h₀ : Startable e s₀) (hl : AllLeft e s) (hb : RunBooks e s₀ s) {r₀ : ItemRow}
    (hr₀ : r₀ ∈ e.pendingRows s₀) : ∃ τ ∈ s.proc.tasks, τ.item = claimedItem r₀ := by
  have hpos : 0 < e.workers.length := by
    rw [h₀.size]
    exact h₀.poolSize
  obtain ⟨w, hw⟩ := List.exists_mem_of_length_pos hpos
  obtain ⟨k, hk, hleft⟩ := hl w hw
  obtain ⟨hrow, ht⟩ := List.mem_filter.mp hr₀
  exact hb.taken w hw k hk hleft r₀ hrow ht

theorem final_once (h₀ : Startable e s₀) (hl : AllLeft e s) (hb : RunBooks e s₀ s) :
    (s.proc.tasks.map (·.item)).Perm ((e.pendingRows s₀).map claimedItem) := by
  have hn : (s.proc.tasks.map (·.item)).Nodup := by
    refine List.Nodup.of_map (·.id) ?_
    rw [List.map_map]
    exact hb.rows.nodup
  have hn₀ : ((e.pendingRows s₀).map claimedItem).Nodup := by
    refine List.Nodup.of_map (·.id) ?_
    rw [List.map_map]
    exact pending_ids_nodup e s₀
  rw [List.perm_ext_iff_of_nodup hn hn₀]
  intro c
  constructor
  · intro hc
    obtain ⟨τ, hτ, rfl⟩ := List.mem_map.mp hc
    obtain ⟨r₀, hr₀, ht, he⟩ := hb.rows.source τ hτ
    exact he ▸ List.mem_map_of_mem (List.mem_filter.mpr ⟨hr₀, ht⟩)
  · intro hc
    obtain ⟨r₀, hr₀, rfl⟩ := List.mem_map.mp hc
    obtain ⟨τ, hτ, he⟩ := hl.taken h₀ hb hr₀
    exact he ▸ List.mem_map_of_mem hτ

/-- The record that a coroutine returned, up to its latency. -/
theorem Computes.noLatency {τ : RowTask} (hc : Computes e τ) {res : ResultRecord}
    (hr : τ.result = some res) : noLatency res =
      noLatency (processRow e.settings τ.item (e.client τ.item.id) 0).1 := by
  obtain ⟨text, st, lat, -, hp⟩ := hc.result hr
  rw [show res = (processRow e.settings τ.item (e.client τ.item.id) lat).1 from congrArg Prod.fst hp]
  exact processRow_latency _ _ _ _ _

/-- The outcome of a row, position by position. -/
theorem sequential_table {rows₀ rows : List ItemRow}
    (h : List.Forall₂ (fun r₀ r => rowOutcome r = if e.takes r₀ then
      (r₀.id, (e.rowResult r₀).status, (e.rowResult r₀).error, (e.rowResult r₀).attempts)
      else rowOutcome r₀) rows₀ rows) :
    rows.map rowOutcome = (e.sequential rows₀).1.map rowOutcome := by
  induction h with
  | nil => rfl
  | @cons r₀ r rows₀ rows hr h ih =>
    rw [List.map_cons, hr, ih]
    simp only [EngineRun.sequential]
    split <;> rfl

theorem final_table (hl : AllLeft e s) (h₀ : Startable e s₀) (hb : RunBooks e s₀ s) :
    s.pool.items.rows.map rowOutcome = (e.sequential s₀.items.rows).1.map rowOutcome := by
  refine sequential_table (forall₂_imp_mem hb.rows.rows fun r₀ hr₀ r hr hnow => ?_)
  cases hnow with
  | other h he => rw [h, he, if_neg Bool.false_ne_true]
  | queued h he hn =>
    obtain ⟨τ, hτ, hi⟩ := hl.taken h₀ hb (List.mem_filter.mpr ⟨hr₀, h⟩)
    exact absurd (by rw [hi]; rfl) (hn τ hτ)
  | taken h hτ hi hk hc hw ho =>
    -- its owner has left, and holds no chunk
    obtain ⟨k, hkw, -, c, hcm, -⟩ := (owners_reachable hb.working.reachable).holds r hr hc _ ho
    rw [hl.claiming hb.working hw hkw] at hcm
    cases hcm
  | @finished τ res h hτ hi hres hk hs herr ha =>
    have hlat := (hb.working.computes τ hτ).noLatency hres
    rw [hi] at hlat
    rw [if_pos h, rowOutcome, hk.1, hs, herr, ha]
    have h1 := congrArg ResultRecord.status hlat
    have h2 := congrArg ResultRecord.error hlat
    have h3 := congrArg ResultRecord.attempts hlat
    simp only [Engine.noLatency] at h1 h2 h3
    rw [h1, h2, h3]
    rfl

/-- A row without a prompt was rejected by the ingest. -/
theorem prompt_none {p : PState} (h : pool.Reachable p) :
    ∀ r ∈ p.items.rows, r.prompt = none → r.status.terminal = true := by
  refine h.induct (I := fun p => ∀ r ∈ p.items.rows, r.prompt = none →
    r.status.terminal = true) ?_ fun p a q hr ih hst r hmem hnone => ?_
  · rintro _ ⟨now, rfl⟩ r hr
    cases hr
  · rcases (mem_next hr hst).mp hmem with ⟨r₁, hr₁, rfl⟩ | hnew
    · rw [(rowNext_sameKey p a r₁).2.2.2] at hnone
      have ht := ih r₁ hr₁ hnone
      rw [rowNext_terminal p a ht]
      exact ht
    · obtain ⟨items, failed, rfl⟩ := rowsNew_job hnew
      obtain ⟨c, hc, he⟩ := PromptItems.fresh_of_mem _ hnew
      rw [he] at hnone ⊢
      simp only [insertRows, List.mem_append, List.mem_map] at hc
      rcases hc with ⟨it, -, rfl⟩ | ⟨fr, -, rfl⟩
      · cases hnone
      · rfl

theorem final_prompts (h₀ : Startable e s₀) (hl : AllLeft e s) (hb : RunBooks e s₀ s)
    {τ : RowTask} (hτ : τ ∈ s.proc.tasks) :
    ∃ text st latencyMs, τ.stage = .returned text st latencyMs ∧
      ∃ r ∈ e.pendingRows s₀, r.id = τ.item.id ∧ ∀ q ∈ st.requests, r.prompt = some q.prompt := by
  obtain ⟨res, hres⟩ := hl.returned hb hτ
  obtain ⟨text, st, lat, hs, hp⟩ := (hb.working.computes τ hτ).result hres
  obtain ⟨r₀, hr₀, ht, hi⟩ := hb.rows.source τ hτ
  refine ⟨text, st, lat, hs, r₀, List.mem_filter.mpr ⟨hr₀, ht⟩, by rw [hi]; rfl, fun q hq => ?_⟩
  obtain ⟨n, hn, -⟩ := processRow_requests e.settings τ.item (e.client τ.item.id) lat
  rw [show st = (processRow e.settings τ.item (e.client τ.item.id) lat).2 from congrArg Prod.snd hp,
    hn] at hq
  rw [(List.mem_replicate.mp hq).2, hi]
  cases hprompt : r₀.prompt with
  | none =>
    have hterm := prompt_none h₀.reachable r₀ hr₀ hprompt
    rw [(takes_iff.mp ht).2] at hterm
    cases hterm
  | some prompt => simp [requestFor, claimedItem, hprompt]

/-! ## The store -/

/-- The chunks of the run. -/
def chunkIds (s : RunState) : List ChunkId := (s.proc.tasks.map (·.chunkId)).dedup

/-- The records of each chunk. -/
def storedChunks (s : RunState) : List (ChunkId × List ResultRecord) :=
  (chunkIds s).map fun cid => (cid, (s.proc.chunkTasks cid).filterMap RowTask.result)

theorem mem_chunkIds {cid : ChunkId} :
    cid ∈ chunkIds s ↔ ∃ τ ∈ s.proc.tasks, τ.chunkId = cid := by
  rw [chunkIds, List.mem_dedup, List.mem_map]

/-- The file of a chunk of the run. -/
theorem AllLeft.file (hl : AllLeft e s) (hb : RunBooks e s₀ s) {cid : ChunkId}
    (hc : cid ∈ chunkIds s) :
    wholeFile e.job cid ((s.proc.chunkTasks cid).filterMap RowTask.result) ∈ s.pool.files := by
  obtain ⟨τ, hτ, rfl⟩ := mem_chunkIds.mp hc
  obtain ⟨rs, hg, hs⟩ := hl.stored hb hτ
  rw [← (gathered_eq hg).1]
  exact hs.mem

theorem final_files (h₀ : Startable e s₀) (hl : AllLeft e s) (hb : RunBooks e s₀ s) :
    s.pool.files.Perm (s₀.files ++ (storedChunks s).map fun c => wholeFile e.job c.1 c.2) := by
  have hbooks := books_reachable hb.working.reachable
  have hbooks₀ := books_reachable h₀.reachable
  have hids : ((storedChunks s).map fun c => wholeFile e.job c.1 c.2).map ChunkFile.chunkId =
      chunkIds s := by
    rw [storedChunks, List.map_map, List.map_map]
    exact List.map_id _
  have hnew : (((storedChunks s).map fun c => wholeFile e.job c.1 c.2).map
      ChunkFile.chunkId).Nodup := by
    rw [hids]
    exact List.nodup_dedup _
  rw [List.perm_ext_iff_of_nodup hbooks.fileIds.of_map]
  · intro f
    rw [List.mem_append]
    constructor
    · intro hf
      refine (hb.files.source f hf).imp_right fun hτ => ?_
      -- the store has one file under the chunk id
      have hfile := hl.file hb (mem_chunkIds.mpr hτ)
      have heq := List.inj_on_of_nodup_map hbooks.fileIds hf hfile rfl
      rw [storedChunks, List.map_map]
      exact List.mem_map.mpr ⟨_, mem_chunkIds.mpr hτ, heq.symm⟩
    · rintro (hf | hf)
      · exact hb.files.old hf
      · rw [storedChunks, List.map_map] at hf
        obtain ⟨cid, hc, rfl⟩ := List.mem_map.mp hf
        exact hl.file hb hc
  · refine List.nodup_append.mpr ⟨hbooks₀.fileIds.of_map, hnew.of_map, fun f hf g hg he => ?_⟩
    subst he
    have hin : f.chunkId ∈ chunkIds s := hids ▸ List.mem_map_of_mem hg
    obtain ⟨τ, hτ, hc⟩ := mem_chunkIds.mp hin
    exact (hb.working.used τ hτ).2 (hc ▸ hbooks₀.fileUsed f hf)

/-- The records of the chunks are those of the coroutines. -/
theorem storedChunks_perm (s : RunState) :
    ((storedChunks s).flatMap (·.2)).Perm (s.proc.tasks.filterMap RowTask.result) := by
  have hblocks := flatMap_filter_perm (fun τ : RowTask => τ.chunkId) s.proc.tasks
    (List.nodup_dedup (s.proc.tasks.map (·.chunkId)))
  have hall : s.proc.tasks.filter (fun τ => τ.chunkId ∈ chunkIds s) = s.proc.tasks :=
    List.filter_eq_self.mpr fun τ hτ => decide_eq_true (mem_chunkIds.mpr ⟨τ, hτ, rfl⟩)
  have h := hblocks.filterMap RowTask.result
  rw [show (s.proc.tasks.map (·.chunkId)).dedup = chunkIds s from rfl, hall,
    List.filterMap_flatMap] at h
  rw [storedChunks, List.flatMap_map]
  exact h

theorem final_records (h₀ : Startable e s₀) (hl : AllLeft e s) (hb : RunBooks e s₀ s) :
    (((storedChunks s).flatMap (·.2)).map noLatency).Perm
      ((e.sequential s₀.items.rows).2.map noLatency) := by
  refine ((storedChunks_perm s).map noLatency).trans ?_
  have hrecords : (s.proc.tasks.filterMap RowTask.result).map noLatency =
      (s.proc.tasks.map (·.item)).map fun c =>
        noLatency (processRow e.settings c (e.client c.id) 0).1 := by
    have hstep : ∀ tasks : List RowTask, tasks ⊆ s.proc.tasks →
        (tasks.filterMap RowTask.result).map noLatency = (tasks.map (·.item)).map fun c =>
          noLatency (processRow e.settings c (e.client c.id) 0).1 := by
      intro tasks hsub
      induction tasks with
      | nil => rfl
      | cons τ rest ih =>
        obtain ⟨hτ, hrest⟩ := List.cons_subset.mp hsub
        obtain ⟨res, hres⟩ := hl.returned hb hτ
        rw [List.filterMap_cons_some hres, List.map_cons, List.map_cons, List.map_cons, ih hrest,
          (hb.working.computes τ hτ).noLatency hres]
    exact hstep _ fun _ h => h
  rw [hrecords, sequential_records]
  refine ((final_once h₀ hl hb).map _).trans (List.Perm.of_eq ?_)
  rw [List.map_map, List.map_map]
  rfl

theorem sequential_of_allLeft (h₀ : Startable e s₀) (hl : AllLeft e s) (hb : RunBooks e s₀ s) :
    Sequential e s₀ s where
  once := final_once h₀ hl hb
  prompts _ hτ := final_prompts h₀ hl hb hτ
  table := final_table hl h₀ hb
  records := ⟨storedChunks s, final_files h₀ hl hb, final_records h₀ hl hb⟩

/-! ## Claims -/

/-- A claim that returns rows. -/
def RunAct.claims : RunAct → Bool
  | .pool (.claim _ _ chunk) => !chunk.isEmpty
  | _ => false

theorem claims_step {v : RunState} {l : RunAct} (hm : RunMove e s l v) :
    s.proc.tasks.length + l.claims.toNat ≤ v.proc.tasks.length := by
  cases hm with
  | row => simp [RunAct.claims]
  | gathered => exact Nat.le_refl _
  | @pool a p ha hst =>
    cases a with
    | claim w cid chunk =>
      simp only [RunAct.claims, EngineRun.spawn, Proc.gather, List.length_append, List.length_map]
      cases chunk <;> simp
    | _ => exact Nat.le_refl _

theorem claims_run {tr : List (Trans RunState RunAct)} (h : (e.live s₀).Run tr s) :
    tr.countP (·.lbl.claims) ≤ s.proc.tasks.length := by
  refine h.induct (P := fun tr s => tr.countP (·.lbl.claims) ≤ s.proc.tasks.length)
    (fun _ _ => Nat.zero_le _) fun tr s l v _ ih hst => ?_
  have hstep := claims_step (runMove_of_step hst.1)
  rw [List.countP_append, List.countP_singleton]
  cases hc : l.claims <;> simp only [hc, Bool.toNat_true, Bool.toNat_false] at hstep ⊢ <;>
    simp <;> omega

/-- The steps of a run, without the clock, the heartbeats and unfinished files. -/
theorem progress_run (h₀ : Startable e s₀) {tr : List (Trans RunState RunAct)}
    (h : (e.live s₀).Run tr s) : tr.countP (·.lbl.progress) ≤
      (e.pendingRows s₀).length * (2 * e.settings.retryMaxAttempts + 7) + e.workers.length := by
  obtain ⟨-, ⟨n, hn, rfl⟩, hp⟩ := h
  have hcount := (run_ranked h₀).count_le ⟨n, hn, rfl⟩ hp
  have hworkers : e.workersRank (e.started s₀) ≤ e.workers.length := by
    have hone : ∀ w ∈ e.workers.toFinset, ((e.started s₀).workers w).elim 0 Worker.rank = 1 := by
      intro w hw
      rw [show (e.started s₀).workers w = _ from if_pos (List.mem_toFinset.mp hw)]
      rfl
    rw [EngineRun.workersRank, Finset.sum_congr rfl hone, ← Finset.card_eq_sum_ones]
    exact e.workers.toFinset_card_le
  have htasks : e.tasksRank s₀ ⟨n, 0, []⟩ =
      (e.pendingRows s₀).length * (2 * e.settings.retryMaxAttempts + 7) := rfl
  unfold EngineRun.rank at hcount
  simp only [htasks] at hcount
  omega

/-- **The pool computes what a sequential loop would.** However the workers,
their heartbeats and the row coroutines are scheduled, while no lease runs out
under a living worker: at most as many claims return rows as rows were waiting,
and the steps are bounded; the worker loops come to their end; and then each
waiting row was processed once, with its own prompt, the table and the store
being those that the loop over the rows leaves. -/
theorem concurrent_eq_sequential (h₀ : Startable e s₀) :
    (∀ tr s, (e.live s₀).Run tr s →
      tr.countP (·.lbl.claims) ≤ (e.pendingRows s₀).length ∧
        tr.countP (·.lbl.progress) ≤ (e.pendingRows s₀).length *
          (2 * e.settings.retryMaxAttempts + 7) + e.workers.length ∧
        (AllLeft e s → Sequential e s₀ s)) ∧
    (∀ s, (e.live s₀).Reachable s → LeasesLive e s → ¬ AllLeft e s →
      (e.live s₀).MayProgress RunAct.progress s) ∧
    ∀ state label, (e.live s₀).Schedule state label →
      (e.live s₀).Fair RunAct.progress state label → ∃ n, AllLeft e (state n) := by
  refine ⟨fun tr s hr => ?_, fun s hs hlive hleft => may_progress h₀ hs hlive hleft,
    fun state label hs hf => workers_leave h₀ hs hf⟩
  have hb := runBooks_reachable h₀ hr.reachable
  exact ⟨(claims_run hr).trans (tasks_length hb.rows), progress_run h₀ hr,
    fun hl => sequential_of_allLeft h₀ hl hb⟩

end final

/-! ## Non-vacuity -/

/-- Two workers, one permit; row 1 is retried once and row 2 is refused. -/
def twoRows : EngineRun where
  job := "j"
  settings := { workerPoolSize := 2, chunkSize := 1 }
  maxConcurrency := 1
  workers := ["w1", "w2"]
  client id attempt :=
    if id = 2 then .permanent "refused" else if attempt = 0 then .retryable "busy" else .success "ok"

def twoRowsRun : List RunAct :=
  [.pool (.claim "w1" chunk1 [⟨1, "a", "hi", 1⟩]), .pool (.claim "w2" chunk2 [⟨2, "b", "ho", 1⟩]),
    .row 1 0, .row 1 5, .row 0 0, .row 0 0, .pool (.tick 30000000), .pool (.renew "w1"), .row 0 0,
    .row 0 7, .gathered "w2", .gathered "w1", .pool (.written "w1"), .pool (.written "w2"),
    .pool (.complete "w2" 1), .pool (.complete "w1" 1), .pool (.claim "w1" chunk1 []),
    .pool (.claim "w2" chunk1 [])]

/-- No lease at all has run out. -/
def leasesHold (s : RunState) : Bool :=
  s.pool.items.rows.all fun r => r.status != .claimed || !leaseExpired s.pool.now r

theorem leasesLive_of_hold {e : EngineRun} {s : RunState} (h : leasesHold s = true) :
    LeasesLive e s := by
  intro r hr w k _ hc _ _ _
  simpa [hc] using List.all_eq_true.mp h r hr

theorem concurrent_eq_sequential_twoRows : ∃ s₀ tr s, Startable twoRows s₀ ∧
    (twoRows.live s₀).Run tr s ∧ tr.countP (·.lbl.claims) = 2 ∧ Sequential twoRows s₀ s ∧
      s.pool.items.rows.map (·.status) = [.succeeded, .failed] := by
  obtain ⟨⟨tr₀, s₀⟩, he₀, hnew, hun, ⟨tr, s⟩, he, hl, hc, hleft, hst⟩ : ∃ p,
      LTS.exec step (.init 0) [.bulkInsert "j" [⟨"a", "hi"⟩, ⟨"b", "ho"⟩] []] = some p ∧
      twoRows.workers.all (fun w => (p.2.workers w).isNone) = true ∧
      p.2.items.rows.all (fun r => r.status != .claimed) = true ∧
      ∃ q, LTS.exec twoRows.step ⟨twoRows.started p.2, ⟨1, 0, []⟩⟩ twoRowsRun = some q ∧
        q.1.all (fun t => leasesHold t.pre) = true ∧ q.1.countP (·.lbl.claims) = 2 ∧
        twoRows.workers.all (fun w => (q.2.pool.workers w).any fun k => k.life = .left) = true ∧
        q.2.pool.items.rows.map (·.status) = [.succeeded, .failed] :=
    ⟨_, rfl, by decide, by decide, _, rfl, by decide +kernel, by decide +kernel,
      by decide +kernel, by decide +kernel⟩
  have h₀ : Startable twoRows s₀ := by
    refine ⟨⟨tr₀, _, ⟨0, rfl⟩, LTS.path_of_exec he₀⟩, fun w hw => ?_, fun r hr _ => ?_, rfl,
      by decide, by decide⟩
    · simpa using List.all_eq_true.mp hnew w hw
    · simpa using List.all_eq_true.mp hun r hr
  have hr : (twoRows.live s₀).Run tr s := by
    refine ⟨_, ⟨1, rfl, rfl⟩, (LTS.path_of_exec he).restrict fun t ht => ?_⟩
    exact leasesLive_of_hold (List.all_eq_true.mp hl t ht)
  have hall : AllLeft twoRows s := by
    intro w hw
    simpa [Option.any_eq_true] using List.all_eq_true.mp hleft w hw
  exact ⟨s₀, tr, s, h₀, hr, hc, ((concurrent_eq_sequential h₀).1 tr s hr).2.2 hall, hst⟩

end BatchSystem.Engine
