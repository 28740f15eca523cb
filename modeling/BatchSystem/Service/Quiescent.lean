import BatchSystem.Engine.Heartbeat
import BatchSystem.Service.JobStates
import BatchSystem.Service.Totals

/-!
# What the workers do after the end of a job

`gather` raises the first exception of a worker and leaves the other workers
running, so `_execute` sets FAILED under them. During the single execution of a
job (`Alone`) that is the only way to go on: the job is quiescent exactly if
each worker that is still running stands in `claim_chunk` with nothing left to
claim (`quiescent_iff`), and after COMPLETED none is running
(`finished_left`). `failed_busy` is a worker that claims a row of a FAILED
job.
-/
namespace BatchSystem.Service

open BatchSystem.Core Domain Queue Engine Ingest Storage

/-- No other execution of the job is scheduled. -/
def Alone (job : JobId) (s : SState) : SAct → Prop
  | .resume _ _ => ∀ a ∈ s.jobs.listActive, a.1 ≠ job
  | .runWorker _ job' _ => job' ≠ job
  | _ => True

/-- The worker that claims rows, calls the client, writes or completes. -/
def works : Act → Option WorkerId
  | .claim w _ (_ :: _) | .processed w _ _ | .writePart w _ _ | .written w | .complete w _ => some w
  | _ => none

def WorksFor (job : JobId) (t : Trans SState SAct) : Prop :=
  ∃ a w k, t.lbl = .worker a ∧ works a = some w ∧ t.pre.pool.workers w = some k ∧ k.job = job

/-- Client calls are in flight for the job. -/
def Calling (s : SState) (job : JobId) : Prop :=
  ∃ w k cid chunk hb, s.pool.workers w = some k ∧ k.job = job ∧ k.life = .running ∧
    k.phase = .processing cid chunk hb

/-- From `s` on, nothing is done for the job. -/
def Quiescent (text : Json → String) (job : JobId) (s : SState) : Prop :=
  ∀ tr v, ((system text).restrict (Alone job)).Path s tr v →
    (∀ t ∈ tr, ¬ WorksFor job t) ∧ ¬ Calling v job

/-- Each worker that is running asks for work, and there is none. -/
def Idle (s : SState) (x : Execution) : Prop :=
  ∀ w ∈ x.workers, ∀ k, s.pool.workers w = some k → k.life = .running → k.phase = .claiming ∧
    (k.settings.chunkSize = 0 ∨
      ∀ r ∈ s.pool.items.rows, r.jobId = x.job → r.status.terminal = true)

/-! ## A single execution -/

section step
variable {text : Json → String} {s v : SState} {l : SAct} {job : JobId}

/-- The job has one execution at most, and a record if it has one. -/
structure One (job : JobId) (s : SState) : Prop where
  unique : ∀ e e' x x', s.execs e = some x → s.execs e' = some x' → x.job = job →
    x'.job = job → e = e'
  record : ∀ e x, s.execs e = some x → x.job = job → ∃ row, s.jobs.get job = some row

/-- While the job is alone, only its submission brings it an execution. -/
theorem born_alone (hc : Change text s l v) (ha : Alone job s l) {e : ExecId} {x' : Execution}
    (hn : s.execs e = none) (hx' : v.execs e = some x') (hj : x'.job = job) :
    s.jobs.get job = none ∧ (∃ row, v.jobs.get job = some row) ∧ createdBy l = [e] := by
  cases exec_born hc hn hx' with
  | @submit path model settings hl =>
    subst hl hj
    cases hc with
    | @submit _ _ _ _ _ jobs _ hjobs =>
      refine ⟨Jobs.get_of_create hjobs, ⟨newJob x'.job path model settings, ?_⟩, rfl⟩
      show jobs.get x'.job = _
      rw [Jobs.get_create hjobs, newJob, if_pos rfl]
  | resume hl hmem =>
    subst hl
    exact absurd hj (ha _ hmem)
  | runWorker hl =>
    subst hl
    exact absurd hj ha

theorem one_step (h : One job s) (hc : Change text s l v) (ha : Alone job s l) : One job v := by
  have back : ∀ e x', v.execs e = some x' → x'.job = job →
      (∃ x, s.execs e = some x ∧ x.job = job) ∨ s.execs e = none := by
    intro e x' hx' hj
    cases hx : s.execs e with
    | none => exact .inr rfl
    | some x => exact .inl ⟨x, rfl, (exec_job hc hx hx').symm.trans hj⟩
  refine ⟨fun e e' x x' hx hx' hj hj' => ?_, fun e x hx hj => ?_⟩
  · rcases back e x hx hj with ⟨y, hy, hyj⟩ | hn <;>
      rcases back e' x' hx' hj' with ⟨y', hy', hyj'⟩ | hn'
    · exact h.unique e e' y y' hy hy' hyj hyj'
    · obtain ⟨row, hrow⟩ := h.record e y hy hyj
      rw [(born_alone hc ha hn' hx' hj').1] at hrow
      cases hrow
    · obtain ⟨row, hrow⟩ := h.record e' y' hy' hyj'
      rw [(born_alone hc ha hn hx hj).1] at hrow
      cases hrow
    · have h1 := (born_alone hc ha hn hx hj).2.2
      have h2 := (born_alone hc ha hn' hx' hj').2.2
      rw [h1] at h2
      exact List.singleton_inj.mp h2
  · rcases back e x hx hj with ⟨y, hy, hyj⟩ | hn
    · obtain ⟨row, hrow⟩ := h.record e y hy hyj
      exact job_persists hc hrow
    · exact (born_alone hc ha hn hx hj).2.1

theorem one_reachable (h : ((system text).restrict (Alone job)).Reachable s) : One job s := by
  refine h.induct (I := One job) ?_ ?_
  · rintro _ ⟨now, rfl⟩
    exact ⟨fun _ _ _ _ hx => (by cases hx), fun _ _ hx => (by cases hx)⟩
  · intro s l v _ hi hst
    exact one_step hi (change_of_step hst.1) hst.2

end step

/-! ## Idle workers stay idle -/

/-- A claim finds nothing. -/
theorem claimed_idle {p : PState} {k : Worker} (h : k.settings.chunkSize = 0 ∨
    ∀ r ∈ p.items.rows, r.jobId = k.job → r.status.terminal = true) :
    claimed p.items k.job k.settings.chunkSize p.now = [] := by
  rcases h with h | h
  · rw [h]; rfl
  · rw [List.eq_nil_iff_forall_not_mem]
    intro r hr
    obtain ⟨hm, hc⟩ := mem_claimed hr
    have := not_terminal_of_claimable hc
    rw [h r hm (claimable_iff.mp hc).1] at this
    cases this

theorem mover_of_works {a : Act} {w : WorkerId} (h : works a = some w) : a.mover = some w := by
  unfold works at h
  split at h <;> first | exact h | cases h

/-- A worker that asks for work when there is none can only leave. -/
theorem idle_next {p q : PState} {a : Act} (hm : Move p a q) {w : WorkerId} {k k' : Worker}
    (hk : p.workers w = some k) (hp : k.phase = .claiming)
    (he : claimed p.items k.job k.settings.chunkSize p.now = []) (hk' : q.workers w = some k') :
    works a ≠ some w ∧ (k' = k ∨ k'.life ≠ .running) := by
  cases turn_of_move hm hk' with
  | same hk₀ hne =>
    exact ⟨fun hw => hne (mover_of_works hw), .inl (Option.some.inj (hk₀.symm.trans hk))⟩
  | start hn => rw [hn] at hk; cases hk
  | leave | raise | crash => exact ⟨by simp [works], .inr (by simp)⟩
  | claim hk₀ _ _ hne _ hperm =>
    obtain rfl := Option.some.inj (hk₀.symm.trans hk)
    have hlen := (List.isPerm_iff.mp hperm).length_eq
    rw [claimChunk_chunk, he] at hlen
    exact absurd (List.eq_nil_of_length_eq_zero hlen) hne
  | renew hk₀ _ hp₀ | renewFails hk₀ _ hp₀ | processed hk₀ _ hp₀ | dropped hk₀ _ hp₀
  | writePart hk₀ _ hp₀ | written hk₀ _ hp₀ | complete hk₀ _ hp₀ =>
    obtain rfl := Option.some.inj (hk₀.symm.trans hk)
    rw [hp] at hp₀
    cases hp₀

theorem works_running {p q : PState} {a : Act} (hm : Move p a q) {w : WorkerId}
    (hw : works a = some w) : ∃ k, p.workers w = some k ∧ k.life = .running := by
  cases hm with
  | tick | bulkInsert | start | leave | renew | renewFails | raise | crash => cases hw
  | @claim x k _ chunk hk hl _ hne =>
    cases chunk with
    | nil => exact absurd rfl hne
    | cons =>
      obtain rfl := Option.some.inj hw
      exact ⟨k, hk, hl⟩
  | processed hk hl | dropped hk hl | writePart _ _ hk hl | written hk hl | complete hk hl =>
    obtain rfl := Option.some.inj hw
    exact ⟨_, hk, hl⟩

/-- The execution of the job is over, and no worker of it has anything to do. -/
structure Over (job : JobId) (s : SState) : Prop where
  ended : ∀ e x, s.execs e = some x → x.job = job → x.pc.ended = true
  record : ∃ row, s.jobs.get job = some row
  idle : ∀ w k, s.pool.workers w = some k → k.job = job → k.life = .running →
    k.phase = .claiming ∧ (k.settings.chunkSize = 0 ∨
      ∀ r ∈ s.pool.items.rows, r.jobId = job → r.status.terminal = true)

section step
variable {text : Json → String} {s v : SState} {l : SAct} {job : JobId}

/-- Nobody adds a row to the job. -/
theorem Over.rows (h : Over job s) (hr : (system text).Reachable s) {a : Act}
    (hst : (system text).step s l v) (ha : poolAct s l = some a)
    (hp : pool.step s.pool a v.pool)
    (ht : ∀ r ∈ s.pool.items.rows, r.jobId = job → r.status.terminal = true) :
    ∀ r ∈ v.pool.items.rows, r.jobId = job → r.status.terminal = true := by
  intro r' hr' hj
  rcases (mem_next (pool_reachable hr) hp).mp hr' with ⟨r, hrow, rfl⟩ | hnew
  · rw [(rowNext_sameKey _ a r).2.1] at hj
    have := ht r hrow hj
    rw [rowNext_terminal _ a this]; exact this
  · obtain ⟨items, failed, rfl⟩ := rowsNew_job hnew
    obtain ⟨e, x, rest, total, -, hx, hxj, hpc⟩ := flush_of_bulkInsert hst ha
    have := h.ended e x hx (hxj.trans hj)
    rw [hpc] at this; cases this

theorem Over.claimed_nil (h : Over job s) {w : WorkerId} {k : Worker}
    (hk : s.pool.workers w = some k) (hj : k.job = job) (hl : k.life = .running) :
    claimed s.pool.items k.job k.settings.chunkSize s.pool.now = [] := by
  subst hj
  exact claimed_idle (h.idle w k hk rfl hl).2

/-- A worker of the job that is running after a step was there before, asking
for work. -/
theorem Over.worker_before (h : Over job s) (hr : (system text).Reachable s)
    (hst : (system text).step s l v) {a : Act} (hp : pool.step s.pool a v.pool) {w : WorkerId}
    {k' : Worker} (hk' : v.pool.workers w = some k') (hj : k'.job = job)
    (hl : k'.life = .running) : s.pool.workers w = some k' := by
  have hm := move_of_step hp
  rcases worker_origin hr hst hk' with ⟨k, hk⟩ | ⟨e, ws, rfl, hw⟩
  · obtain ⟨k₁, hk₁, hj₁, -⟩ := workers_pool hr hst hk
    obtain rfl := Option.some.inj (hk₁.symm.trans hk')
    have hl₀ : k.life = .running := by
      cases life_next hm hk' with
      | new hn => rw [hk] at hn; cases hn
      | same h₀ => rwa [Option.some.inj (hk.symm.trans h₀)]
      | moved h₀ _ hl₀ | left h₀ hl₀ | stopped h₀ hl₀ =>
        rwa [Option.some.inj (hk.symm.trans h₀)]
    have hj₀ := hj₁.symm.trans hj
    rcases (idle_next hm hk (h.idle w k hk hj₀ hl₀).1 (h.claimed_nil hk hj₀ hl₀) hk').2 with
      rfl | hn
    · exact hk
    · exact absurd hl hn
  · obtain ⟨x, hx, hws⟩ := started_workers hst
    obtain rfl := Option.some.inj ((hws w hw).symm.trans hk')
    have hend := h.ended e x hx hj
    cases change_of_step hst with
    | engineStart hx' hpc =>
      obtain rfl := Option.some.inj (hx'.symm.trans hx)
      rw [hpc] at hend
      cases hend

theorem over_step (h : Over job s) (hr : (system text).Reachable s)
    (hst : (system text).step s l v) (ha : Alone job s l) :
    Over job v ∧ ¬ WorksFor job ⟨s, l, v⟩ := by
  have hc := change_of_step hst
  refine ⟨⟨fun e x' hx' hj => ?_, ?_, fun w k' hk' hj hl => ?_⟩, ?_⟩
  · cases hx : s.execs e with
    | none =>
      obtain ⟨row, hrow⟩ := h.record
      rw [(born_alone hc ha hx hx' hj).1] at hrow
      cases hrow
    | some x => exact (exec_kept hc hx hx').2.1 (h.ended e x hx ((exec_job hc hx hx').symm.trans hj))
  · obtain ⟨row, hrow⟩ := h.record
    exact job_persists hc hrow
  · rcases pool_next hr hst with hp | ⟨a, hact, hp⟩
    · rw [hp] at hk' ⊢
      exact h.idle w k' hk' hj hl
    · obtain ⟨h1, h2⟩ := h.idle w k' (h.worker_before hr hst hp hk' hj hl) hj hl
      exact ⟨h1, h2.imp_right fun ht => h.rows hr hst hact hp ht⟩
  · rintro ⟨a, w, k, hla, hw, hk, hj⟩
    obtain rfl : l = .worker a := hla
    cases hc with
    | @worker _ p _ hp =>
      have hm := move_of_step hp
      obtain ⟨k₀, hk₀, hl⟩ := works_running hm hw
      obtain rfl := Option.some.inj (hk₀.symm.trans hk)
      obtain ⟨k', hk'⟩ := worker_persists hm hk
      exact (idle_next hm hk (h.idle w _ hk hj hl).1 (h.claimed_nil hk hj hl) hk').1 hw

theorem Over.quiescent (h : Over job s) (hr : (system text).Reachable s) :
    Quiescent text job s := by
  intro tr v hp
  have key : Over job v ∧ ∀ t ∈ tr, ¬ WorksFor job t := by
    induction hp with
    | nil => exact ⟨h, by simp⟩
    | snoc hp hst ih =>
      obtain ⟨h1, h2⟩ := over_step ih.1 (hr.path hp.of_restrict) hst.1 hst.2
      refine ⟨h1, fun t ht => ?_⟩
      rcases List.mem_append.mp ht with ht | ht
      · exact ih.2 t ht
      · obtain rfl := List.mem_singleton.mp ht
        exact h2
  refine ⟨key.2, ?_⟩
  rintro ⟨w, k, cid, chunk, hb, hk, hj, hl, hph⟩
  have := (key.1.idle w k hk hj hl).1
  rw [hph] at this; cases this

end step
/-! ## Busy workers work -/

/-- A worker that asks for work can get a claimable row. -/
theorem claim_enabled {p : PState} {w : WorkerId} {k : Worker} (hk : p.workers w = some k)
    (hl : k.life = .running) (hp : k.phase = .claiming) (hs : k.settings.chunkSize ≠ 0)
    {r : ItemRow} (hr : r ∈ p.items.rows) (hc : claimable k.job p.now r = true) :
    ∃ cid c chunk q, pool.step p (.claim w cid (c :: chunk)) q := by
  obtain ⟨cid, q, hq⟩ := claim_possible hk hl hp
  cases hch : (claimChunk p.items p.now k.job w k.settings.chunkSize
      k.settings.leaseTtlSeconds).2 with
  | nil =>
    rw [claimChunk_chunk, List.map_eq_nil_iff] at hch
    have := (claimed_eq_nil (Nat.one_le_iff_ne_zero.mpr hs)).mp hch r hr
    rw [hc] at this
    cases this
  | cons c chunk =>
    rw [hch] at hq
    exact ⟨cid, c, chunk, q, hq⟩

/-- An unfinished row can be claimed at once, or when its lease has run out. -/
theorem claimable_later {p : PState} (h : pool.Reachable p) {r : ItemRow}
    (hr : r ∈ p.items.rows) (ht : r.status.terminal = false) :
    ∃ d : Nat, claimable r.jobId (p.now + d) r = true := by
  cases hs : r.status with
  | pending => exact ⟨0, claimable_iff.mpr ⟨rfl, .inl hs⟩⟩
  | claimed =>
    obtain ⟨w, u, hin⟩ := inHands h hr hs
    refine ⟨(u - p.now + 1).toNat, claimable_iff.mpr ⟨rfl, .inr ⟨hs, ?_⟩⟩⟩
    simp only [leaseExpired, hin.lease, decide_eq_true_eq]
    omega
  | succeeded | failed => rw [hs] at ht; cases ht

section step
variable {text : Json → String} {s : SState} {job : JobId}

theorem worker_step {a : Act} {p : PState} (ha : byWorker a = true) (hp : pool.step s.pool a p) :
    (system text).step s (.worker a) { s with pool := p } := by
  show sysStep text s (.worker a) = some _
  simp only [sysStep, ha, if_true]
  rw [show Engine.step s.pool a = some p from hp]
  rfl

/-- A worker of the job that is running has something to do, sooner or later. -/
theorem busy_works (hr : (system text).Reachable s) {w : WorkerId} {k : Worker}
    (hk : s.pool.workers w = some k) (hj : k.job = job) (hl : k.life = .running)
    (hbusy : ¬ (k.phase = .claiming ∧ (k.settings.chunkSize = 0 ∨
      ∀ r ∈ s.pool.items.rows, r.jobId = job → r.status.terminal = true))) :
    ¬ Quiescent text job s := by
  intro hq
  have may := mayReturn hk hl
  -- what the worker can do is a step of the system
  have one : ∀ a, byWorker a = true → works a = some w → (∃ p, pool.step s.pool a p) → False := by
    rintro a hb hw ⟨p, hp⟩
    have hst : (system text).step s (.worker a) { s with pool := p } := worker_step hb hp
    exact (hq _ _ (.single ⟨hst, trivial⟩)).1 _ List.mem_cons_self ⟨a, w, k, rfl, hw, hk, hj⟩
  cases hph : k.phase with
  | processing cid chunk hb => exact (hq _ _ .nil).2 ⟨w, k, cid, chunk, hb, hk, hj, hl, hph⟩
  | writing cid chunk results =>
    rw [hph] at may
    exact one (.written w) rfl rfl may
  | completing cid chunk results ref =>
    rw [hph] at may
    obtain ⟨n, hn⟩ := may
    exact one (.complete w n) rfl rfl hn
  | claiming =>
    rw [not_and_or, not_or] at hbusy
    obtain ⟨hs, hrows⟩ := hbusy.resolve_left (not_not.mpr hph)
    push Not at hrows
    obtain ⟨r, hrow, hrj, ht⟩ := hrows
    obtain ⟨d, hc⟩ := claimable_later (pool_reachable hr) hrow (by simpa using ht)
    rw [hrj, ← hj] at hc
    obtain ⟨cid, c, chunk, p, hp⟩ := claim_enabled (p := { s.pool with now := s.pool.now + d })
      hk hl hph hs hrow hc
    have htick : (system text).step s (.worker (.tick d))
        { s with pool := { s.pool with now := s.pool.now + d } } := worker_step rfl rfl
    have hclaim : (system text).step { s with pool := { s.pool with now := s.pool.now + d } }
        (.worker (.claim w cid (c :: chunk))) { s with pool := p } := worker_step rfl hp
    refine (hq _ _ (.cons ⟨htick, trivial⟩ (.single ⟨hclaim, trivial⟩))).1 _
      (List.mem_cons_of_mem _ List.mem_cons_self) ⟨_, w, k, rfl, rfl, hk, hj⟩

/-! ## Headline -/

/-- All workers have left when an engine is about to set COMPLETED, and after it. -/
theorem finished_left (hr : (system text).Reachable s) : ∀ e x, s.execs e = some x →
    x.pc = .gathered ∨ x.pc = .finished → ∀ w ∈ x.workers, hasLeft s.pool w = true := by
  refine hr.induct (I := fun s => ∀ e x, s.execs e = some x →
    x.pc = .gathered ∨ x.pc = .finished → ∀ w ∈ x.workers, hasLeft s.pool w = true) ?_ ?_
  · rintro _ ⟨now, rfl⟩ e x hx
    cases hx
  · intro s l v hr ih hst e x' hx' hp' w hw
    apply left_pool hr hst
    cases execTurn_of_change (change_of_step hst) hx' with
    | same hx => exact ih e x' hx hp' w hw
    | submit | resume | runWorker | setIngesting | flush | setTotal | setRunning | engineStart
    | handlerRaises | setFailed | crash => rcases hp' with hp' | hp' <;> cases hp'
    | gathered _ _ hl => exact hl w hw
    | setCompleted hx hp => exact ih _ _ hx (.inl hp) w hw
    | @gatherRaises x _ msg | @raise x msg =>
      have hp' : x.except msg = .gathered ∨ x.except msg = .finished := hp'
      unfold Execution.except at hp'
      split at hp' <;> rcases hp' with hp' | hp' <;> cases hp'

/-- **A finished job is quiescent exactly if none of its workers is running**,
other than workers that ask for work when there is none. -/
theorem quiescent_iff (h : ((system text).restrict (Alone job)).Reachable s) {e : ExecId}
    {x : Execution} (hx : s.execs e = some x) (hj : x.job = job)
    (hp : x.pc = .finished ∨ x.pc = .failed) :
    (Quiescent text job s ↔ Idle s x) ∧ (x.pc = .finished → Quiescent text job s) := by
  have hr := h.of_restrict
  have hone := one_reachable h
  have hcrew := crews_reachable hr
  have hiff : Quiescent text job s ↔ Idle s x := by
    constructor
    · intro hq w hw k hk hl
      by_contra hbusy
      obtain ⟨k', hk', hkj, -⟩ := hcrew.members e x hx w hw
      obtain rfl := Option.some.inj (hk'.symm.trans hk)
      rw [hj] at hbusy
      exact busy_works hr hk (hkj.trans hj) hl hbusy hq
    · intro hidle
      refine Over.quiescent ⟨fun e' x' hx' hj' => ?_, hone.record e x hx hj,
        fun w k hk hkj hl => ?_⟩ hr
      · obtain rfl := hone.unique e e' x x' hx hx' hj hj'
        obtain rfl := Option.some.inj (hx.symm.trans hx')
        rcases hp with hp | hp <;> rw [hp] <;> rfl
      · obtain ⟨e', x', hx', hw, hkx, -⟩ := worker_execution hr hk
        obtain rfl := hone.unique e e' x x' hx hx' hj (hkx.symm.trans hkj)
        obtain rfl := Option.some.inj (hx.symm.trans hx')
        rw [← hj]
        exact hidle w hw k hk hl
  refine ⟨hiff, fun hfin => hiff.mpr fun w hw k hk hl => ?_⟩
  obtain ⟨k', hk', hleft⟩ := hasLeft_iff.mp (finished_left hr e x hx (.inr hfin) w hw)
  obtain rfl := Option.some.inj (hk'.symm.trans hk)
  rw [hl] at hleft; cases hleft

end step
/-! ## Non-vacuity -/

/-- Two workers of a job with two rows. -/
def twoWorkers : Settings := { workerPoolSize := 2, chunkSize := 1 }

def fileAB : List Json :=
  [.obj [("id", .str "a"), ("prompt", .str "hi")], .obj [("id", .str "b"), ("prompt", .str "ho")]]

/-- The workers `ws` raise while they claim, and the job is set FAILED. -/
def failedRun (ws : List WorkerId) : List SAct :=
  [.submit 0 "j" "in.json" none twoWorkers, .setIngesting 0 fileAB, .flush 0, .setTotal 0,
    .setRunning 0, .engineStart 0 ["w1", "w2"]] ++ ws.map (fun w => .worker (.raise w)) ++
    [.gatherRaises 0 "w1" "db", .setFailed 0]

theorem alone_failedRun (ws : List WorkerId) : ∀ l ∈ failedRun ws, ∀ s, Alone "j" s l := by
  intro l hl s
  simp only [failedRun, List.mem_append, List.mem_map] at hl
  rcases hl with (hl | ⟨w, -, rfl⟩) | hl
  · simp only [List.mem_cons, List.not_mem_nil, or_false] at hl
    rcases hl with rfl | rfl | rfl | rfl | rfl | rfl <;> trivial
  · trivial
  · simp only [List.mem_cons, List.not_mem_nil, or_false] at hl
    rcases hl with rfl | rfl <;> trivial

/-- The second worker claims a row of the FAILED job. -/
theorem failed_busy : ¬ ∀ s, ((system noText).restrict (Alone "j")).Reachable s → ∀ e x,
    s.execs e = some x → x.job = "j" → x.pc = .finished ∨ x.pc = .failed →
      Quiescent noText "j" s := by
  intro h
  obtain ⟨⟨tr, s⟩, he, x, hx, hj, hp, k, hk, hkj, v, hv⟩ : ∃ p,
      LTS.exec (sysStep noText) (.init 0) (failedRun ["w1"]) = some p ∧ ∃ x,
        p.2.execs 0 = some x ∧ x.job = "j" ∧ x.pc = .failed ∧ ∃ k,
          p.2.pool.workers "w2" = some k ∧ k.job = "j" ∧ ∃ v,
            sysStep noText p.2 (.worker (.claim "w2" chunk1 [⟨1, "a", "hi", 1⟩])) = some v :=
    ⟨_, rfl, _, rfl, rfl, rfl, _, rfl, rfl, _, rfl⟩
  have hr : ((system noText).restrict (Alone "j")).Run tr s :=
    LTS.restrict_of_exec ⟨0, rfl⟩ he (alone_failedRun ["w1"])
  have hq := h s hr.reachable 0 x hx hj (.inr hp)
  exact (hq _ v (.single ⟨hv, trivial⟩)).1 _ List.mem_cons_self ⟨_, "w2", k, rfl, rfl, hk, hkj⟩

theorem failed_quiescent : ∃ s x, ((system noText).restrict (Alone "j")).Reachable s ∧
    s.execs 0 = some x ∧ x.pc = .failed ∧ Quiescent noText "j" s := by
  obtain ⟨⟨tr, s⟩, he, x, hx, hj, hp, hall⟩ : ∃ p,
      LTS.exec (sysStep noText) (.init 0) (failedRun ["w1", "w2"]) = some p ∧ ∃ x,
        p.2.execs 0 = some x ∧ x.job = "j" ∧ x.pc = .failed ∧
          (x.workers.all fun w => (p.2.pool.workers w).all fun k => k.life ≠ .running) = true :=
    ⟨_, rfl, _, rfl, rfl, rfl, by decide⟩
  have hr : ((system noText).restrict (Alone "j")).Run tr s :=
    LTS.restrict_of_exec ⟨0, rfl⟩ he (alone_failedRun ["w1", "w2"])
  refine ⟨s, x, hr.reachable, hx, hp, ?_⟩
  refine (quiescent_iff hr.reachable hx hj (.inr hp)).1.mpr fun w hw k hk hl => ?_
  have := List.all_eq_true.mp hall w hw
  simp [hk, hl] at this

end BatchSystem.Service
