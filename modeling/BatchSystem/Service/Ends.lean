import BatchSystem.Service.Crew
import BatchSystem.Service.JobStates
import BatchSystem.Service.Resume
import BatchSystem.Service.WorkLeft

/-!
# Every job ends

A service that is left alone: nothing new is scheduled, no process crashes, no
lease runs out under a running worker, and the files stay what they are. From any
reachable state, with any number of processes, jobs and workers, and whatever
exceptions are raised, a fair schedule comes to a state in which all executions
are over and no worker runs (`every_job_ends`). Then every job is COMPLETED or
FAILED, but for those that lost an execution to a crash before, or whose error
handler raised itself.

* `sysRank_step`: the pool's rank, with what each execution has before it, is
  raised by no step and lowered by each one that settles.
* `worker_maySettle`, `exec_maySettle`: a worker that runs, or an execution that is
  not over, can move.
* `served_reachable`: a job that is not COMPLETED or FAILED has an execution that
  has not set its last state.
-/
namespace BatchSystem.Service

open BatchSystem.Core Domain Queue Engine Ingest SState

/-! ## A service left alone -/

/-- Steps that begin an execution, or end one from outside. -/
def outside : SAct → Bool
  | .submit .. | .resume .. | .runWorker .. | .crash _ => true
  | .setIngesting .. | .flush _ | .setTotal _ | .setRunning _ | .engineStart .. | .gathered _
  | .setCompleted _ | .gatherRaises .. | .raise .. | .setFailed _ | .worker _ => false

structure Undisturbed (file : JobId → List Json) (s : SState) (l : SAct) : Prop where
  alone : outside l = false
  file : ∀ e x elements, l = .setIngesting e elements → s.execs e = some x → elements = file x.job
  leases : Unexpired s.pool

/-- The runs from `s₀` on that nothing disturbs. -/
def settling (text : Json → String) (file : JobId → List Json) (s₀ : SState) : LTS SState SAct :=
  ((system text).startAt s₀).restrict (Undisturbed file)

/-- All steps but the clock, the heartbeats and torn writes. -/
def settles : SAct → Bool
  | .worker a => advances a
  | l => !outside l

/-! ## The rank -/

section rank
variable (text : Json → String) (file : JobId → List Json)

/-- The `bulk_insert` calls that the execution will make. -/
def callsToCome (x : Execution) : List (List PromptItem × List ResultRecord) :=
  match x.pc with
  | .created => (ingestLoop text (buildValidationPipeline x.settings) (file x.job)).flushed
  | .ingesting rest _ => rest
  | _ => []

def rowsToCome (x : Execution) : Nat :=
  ((callsToCome text file x).map fun b => b.1.length + b.2.length).sum

def workersToCome (x : Execution) : Nat := if x.pc.early then x.settings.workerPoolSize else 0

def awaits (x : Execution) : Nat :=
  (callsToCome text file x).length + match x.pc with
  | .created => 7
  | .ingesting .. => 6
  | .ingested => 5
  | .starting => 4
  | .running => 3
  | .gathered => 2
  | .failing _ => 1
  | .finished | .failed | .raised | .dead => 0

/-- A sum over executions. -/
def execTotal (es : Finset ExecId) (s : SState) (f : Execution → Nat) : Nat :=
  ∑ e ∈ es, (s.execs e).elim 0 f

def crew (es : Finset ExecId) (s : SState) : Finset WorkerId :=
  es.biUnion fun e => ((s.execs e).elim [] Execution.workers).toFinset

def sysRank (es : Finset ExecId) (K : Nat) (s : SState) : Nat :=
  execTotal es s workersToCome * (4 * K + 5) + 4 * execTotal es s (rowsToCome text file) +
    execTotal es s (awaits text file) + poolRank (crew es s) K s.pool

/-- The rows that there are and will be. -/
def rowBudget (es : Finset ExecId) (s : SState) : Nat :=
  s.pool.items.rows.length + execTotal es s (rowsToCome text file)

end rank

section executions
variable {text : Json → String} {file : JobId → List Json} {es : Finset ExecId} {K : Nat}
  {s u v : SState} {e : ExecId} {x x' : Execution}

theorem mem_crew {w : WorkerId} :
    w ∈ crew es s ↔ ∃ e ∈ es, ∃ x, s.execs e = some x ∧ w ∈ x.workers := by
  rw [crew, Finset.mem_biUnion]
  refine exists_congr fun e => and_congr_right fun _ => ?_
  cases hx : s.execs e with
  | none => simp
  | some x => simp

theorem execTotal_set (f : Execution → Nat) (x' : Execution) (he : e ∈ es) (hx : s.execs e = some x)
    (hu : u.execs = s.execs) : execTotal es (u.setExec e x') f + f x = execTotal es s f + f x' := by
  have h := LTS.sum_change (f := fun d => (s.execs d).elim 0 f)
    (g := fun d => ((u.setExec e x').execs d).elim 0 f) he fun d _ hne => by
      simp only [setExec, if_neg hne, hu]
  simp only [hx, setExec, if_true, Option.elim_some] at h
  exact h

theorem crew_set (hx : s.execs e = some x) (hu : u.execs = s.execs)
    (hw : x'.workers = x.workers) : crew es (u.setExec e x') = crew es s := by
  refine Finset.biUnion_congr rfl fun d _ => ?_
  by_cases hd : d = e
  · simp only [setExec, hd, if_true, hx, Option.elim_some, hw]
  · simp only [setExec, if_neg hd, hu]

/-- What a step that inserts `m` rows leaves of the work of its execution. -/
structure Awaited (text : Json → String) (file : JobId → List Json) (m : Nat)
    (x x' : Execution) : Prop where
  workers : x'.workers = x.workers
  toCome : workersToCome x' ≤ workersToCome x
  rows : rowsToCome text file x' + m ≤ rowsToCome text file x
  awaits : awaits text file x' + 1 ≤ awaits text file x

/-- An execution moves, and the pool has `m` rows more. -/
theorem sysRank_exec {m : Nat} (he : e ∈ es) (hx : s.execs e = some x) (hu : u.execs = s.execs)
    (hp : ∀ W, poolRank W K u.pool ≤ poolRank W K s.pool + 4 * m)
    (hrows : u.pool.items.rows.length ≤ s.pool.items.rows.length + m)
    (h : Awaited text file m x x') :
    sysRank text file es K (u.setExec e x') + 1 ≤ sysRank text file es K s ∧
      rowBudget text file es (u.setExec e x') ≤ rowBudget text file es s := by
  have hcome := execTotal_set workersToCome x' he hx hu
  have hrest := execTotal_set (rowsToCome text file) x' he hx hu
  have hawaits := execTotal_set (awaits text file) x' he hx hu
  obtain ⟨hw, hc, hr, ha⟩ := h
  have hle : execTotal es (u.setExec e x') workersToCome ≤ execTotal es s workersToCome := by omega
  have hmul := Nat.mul_le_mul_right (4 * K + 5) hle
  have hrank := hp (crew es s)
  have hpool : (u.setExec e x').pool = u.pool := rfl
  unfold sysRank rowBudget
  rw [crew_set hx hu hw, hpool]
  omega

/-- An execution moves and leaves the pool alone. -/
theorem sysRank_alone (he : e ∈ es) (hx : s.execs e = some x) (hu : u.execs = s.execs)
    (hp : u.pool = s.pool) (h : Awaited text file 0 x x') :
    sysRank text file es K (u.setExec e x') + 1 ≤ sysRank text file es K s ∧
      rowBudget text file es (u.setExec e x') ≤ rowBudget text file es s := by
  refine sysRank_exec he hx hu (fun W => ?_) ?_ h
  · rw [hp]
    exact Nat.le_refl _
  · rw [hp]
    exact Nat.le_refl _

/-- The workers that an engine starts join the others. -/
theorem crew_start {ws : List WorkerId} {p : PState} {pc : Pc} (he : e ∈ es)
    (hx : s.execs e = some x) (hnone : x.workers = []) :
    crew es ({ s with pool := p }.setExec e { x with pc, workers := ws }) =
      crew es s ∪ ws.toFinset := by
  ext w
  rw [Finset.mem_union, List.mem_toFinset, mem_crew, mem_crew]
  constructor
  · intro h
    obtain ⟨d, hd, y, hy, hw⟩ := h
    rcases of_setExec hy with ⟨-, rfl⟩ | ⟨-, hy⟩
    · exact .inr hw
    · exact .inl ⟨d, hd, y, hy, hw⟩
  · intro h
    rcases h with ⟨d, hd, y, hy, hw⟩ | hw
    · by_cases hde : d = e
      · subst hde
        obtain rfl := Option.some.inj (hy.symm.trans hx)
        rw [hnone] at hw
        cases hw
      · exact ⟨d, hd, y, (if_neg hde).trans hy, hw⟩
    · exact ⟨e, he, _, if_pos rfl, hw⟩

/-- An engine starts its workers. -/
theorem sysRank_start {ws : List WorkerId} {p : PState} (he : e ∈ es) (hx : s.execs e = some x)
    (hp : x.pc = .starting) (hnone : x.workers = [])
    (hlen : ws.length = x.settings.workerPoolSize)
    (hst : pool.step s.pool (.start ws x.job x.settings) p) :
    sysRank text file es K ({ s with pool := p }.setExec e { x with pc := .running, workers := ws })
        + 1 ≤ sysRank text file es K s ∧
      rowBudget text file es ({ s with pool := p }.setExec e
        { x with pc := .running, workers := ws }) ≤ rowBudget text file es s := by
  obtain ⟨hrank, hitems⟩ := poolRank_start (W := crew es s) (K := K) hst
  have hu : ({ s with pool := p } : SState).execs = s.execs := rfl
  have hcome := execTotal_set workersToCome { x with pc := .running, workers := ws } he hx hu
  have hrest :=
    execTotal_set (rowsToCome text file) { x with pc := .running, workers := ws } he hx hu
  have hawaits := execTotal_set (awaits text file) { x with pc := .running, workers := ws } he hx hu
  have h1 : workersToCome x = ws.length := by
    unfold workersToCome
    rw [hp, hlen]
    rfl
  have h2 : workersToCome { x with pc := .running, workers := ws } = 0 := rfl
  have h3 : rowsToCome text file x = 0 := by
    unfold rowsToCome callsToCome
    rw [hp]
    rfl
  have h4 : awaits text file x = 4 := by
    unfold awaits callsToCome
    rw [hp]
    rfl
  have h5 : rowsToCome text file { x with pc := .running, workers := ws } = 0 := rfl
  have h6 : awaits text file { x with pc := .running, workers := ws } = 3 := rfl
  rw [h1, h2] at hcome
  have hmul := congrArg (· * (4 * K + 5)) hcome
  simp only [Nat.add_zero, Nat.add_mul] at hmul
  have hpool : ({ s with pool := p }.setExec e
    { x with pc := .running, workers := ws } : SState).pool = p := rfl
  unfold sysRank rowBudget
  rw [crew_start he hx hnone, hpool, hitems]
  omega

/-- An exception leaves the error handler at most. -/
theorem awaited_except {msg : String} (h : 2 ≤ awaits text file x) :
    Awaited text file 0 x { x with pc := x.except msg } := by
  unfold Execution.except
  split
  · refine ⟨rfl, Nat.zero_le _, Nat.zero_le _, ?_⟩
    exact Nat.le_trans (show 0 + 1 ≤ 2 by omega) h
  · exact ⟨rfl, Nat.zero_le _, Nat.zero_le _, h⟩

/-- An execution that goes on has one await less before it. -/
theorem awaited_next {pc : Pc} (hw : pc.early = true → x.pc.early = true)
    (hc : callsToCome text file { x with pc } = callsToCome text file x)
    (ha : awaits text file { x with pc } + 1 ≤ awaits text file x) :
    Awaited text file 0 x { x with pc } := by
  refine ⟨rfl, ?_, ?_, ha⟩
  · unfold workersToCome
    split
    · rename_i he
      rw [if_pos (hw he)]
    · exact Nat.zero_le _
  · unfold rowsToCome
    rw [hc]
    exact Nat.le_refl _

end executions

/-! ## One step -/

section step
variable {text : Json → String} {file : JobId → List Json} {es : Finset ExecId} {K : Nat}
  {s v : SState} {l : SAct}

/-- Nothing new is scheduled. -/
theorem execs_stay (hc : Change text s l v) (hl : outside l = false) {e : ExecId} {x' : Execution}
    (h : v.execs e = some x') : ∃ x, s.execs e = some x := by
  cases execTurn_of_change hc h with
  | submit | resume | runWorker => cases hl
  | same hx | setIngesting _ hx | flush hx | setTotal hx | setRunning hx | engineStart hx
  | gathered hx | setCompleted hx | gatherRaises hx | raise hx | handlerRaises hx | setFailed hx
  | crash hx => exact ⟨_, hx⟩

/-- No step raises the rank, and each settling one lowers it. -/
theorem sysRank_step (hr : (system text).Reachable s) (hes : ∀ e x, s.execs e = some x → e ∈ es)
    (hK : rowBudget text file es s ≤ K) (hst : (system text).step s l v)
    (hu : Undisturbed file s l) :
    sysRank text file es K v + (settles l).toNat ≤ sysRank text file es K s ∧
      rowBudget text file es v ≤ rowBudget text file es s := by
  cases change_of_step hst with
  | submit | resume | runWorker | crash => cases hu.alone
  | @setIngesting e x elements hx hp =>
    obtain rfl := hu.file e x elements rfl hx
    refine sysRank_alone (hes e x hx) hx rfl rfl (awaited_next ?_ ?_ ?_)
    · intro _
      rw [hp]
      rfl
    · simp only [callsToCome, hp]
    · simp only [awaits, callsToCome, hp]
      omega
  | @flush e x b rest total p hx hp hpool =>
    have hins := fun W => (poolRank_insert (W := W) (K := K) hpool).1
    have hrows := (poolRank_insert (W := ∅) (K := K) hpool).2
    refine sysRank_exec (u := { s with pool := p }) (hes e x hx) hx rfl hins hrows ⟨rfl, ?_, ?_, ?_⟩
    · simp only [workersToCome, hp, Pc.early]
      exact Nat.le_refl _
    · simp only [rowsToCome, callsToCome, hp, List.map_cons, List.sum_cons]
      omega
    · simp only [awaits, callsToCome, hp, List.length_cons]
      omega
  | setTotal hx hp | setRunning hx hp =>
    refine sysRank_alone (hes _ _ hx) hx rfl rfl (awaited_next ?_ ?_ ?_)
    · intro _
      rw [hp]
      rfl
    · simp only [callsToCome, hp]
    · simp only [awaits, callsToCome, hp]
      exact Nat.le_refl _
  | @engineStart e x ws p hx hp hlen hn hpool =>
    have hnone := (crews_reachable hr).early e x hx (by rw [hp]; rfl)
    exact sysRank_start (hes e x hx) hx hp hnone hlen hpool
  | gathered hx hp | setCompleted hx hp | setFailed hx hp | handlerRaises hx hp =>
    refine sysRank_alone (hes _ _ hx) hx rfl rfl (awaited_next ?_ ?_ ?_)
    · intro h
      cases h
    · simp only [callsToCome, hp]
    · simp only [awaits, callsToCome, hp]
      omega
  | @gatherRaises e x w msg hx hp =>
    refine sysRank_alone (hes _ _ hx) hx rfl rfl (awaited_except ?_)
    simp only [awaits, callsToCome, hp]
    omega
  | @raise e x msg hx hp =>
    refine sysRank_alone (hes _ _ hx) hx rfl rfl (awaited_except ?_)
    rcases hp with hp | ⟨rest, total, hp⟩ | hp | hp <;> simp only [awaits, hp] <;> omega
  | @worker a p ha hpool =>
    have hpr := pool_reachable hr
    have hlen := rows_byWorker hpr hpool ha
    have hrows : s.pool.items.rows.length ≤ K := Nat.le_trans (Nat.le_add_right _ _) hK
    have hcrew : ∀ w, runs s.pool w = true → w ∈ crew es s := by
      intro w hw
      obtain ⟨k, hk, -⟩ := runs_iff.mp hw
      obtain ⟨e, x, hx, hmem, -⟩ := worker_execution hr hk
      exact mem_crew.mpr ⟨e, hes e x hx, x, hx, hmem⟩
    have hrank := poolRank_step hpr hpool ha hu.leases hcrew hrows
    have hsame : crew es { s with pool := p } = crew es s := rfl
    have htotal : ∀ f, execTotal es { s with pool := p } f = execTotal es s f := fun _ => rfl
    have hsettles : settles (.worker a) = advances a := rfl
    rw [hsettles]
    unfold sysRank rowBudget
    rw [hsame, htotal, htotal, htotal]
    show _ + poolRank (crew es s) K p + _ ≤ _ ∧ p.items.rows.length + _ ≤ _
    omega

end step

/-! ## Whoever is not over can move -/

/-- A worker crashes only with its execution. -/
def CrashesWhole (s : SState) : Prop :=
  ∀ e x w k since, s.execs e = some x → w ∈ x.workers → s.pool.workers w = some k →
    k.life = .crashed since → x.pc.ended = true

section progress
variable {text : Json → String} {s v : SState} {l : SAct}

theorem crashed_next {p q : PState} {a : Act} (hm : Move p a q) {w : WorkerId} {k' : Worker}
    {since : Int} (hk' : q.workers w = some k') (hl : k'.life = .crashed since) :
    (∃ k, p.workers w = some k ∧ k.life = .crashed since) ∨ ∃ ws, a = .crash ws ∧ w ∈ ws := by
  cases turn_of_move hm hk' with
  | same hk | writePart hk => exact .inl ⟨_, hk, hl⟩
  | crash hk hrun hmem => exact .inr ⟨_, rfl, hmem⟩
  | start => cases hl
  | leave | dropped | raise => cases hl
  | claim hk hrun | renew hk hrun | renewFails hk hrun | processed hk hrun | written hk hrun
  | complete hk hrun =>
    rw [show _ = Life.running from hrun] at hl
    cases hl

/-- A worker of an execution was its worker before, or has just been started. -/
theorem member_before (hc : Change text s l v) {e : ExecId} {x' : Execution}
    (hx' : v.execs e = some x') {w : WorkerId} (hw : w ∈ x'.workers) :
    (∃ x, s.execs e = some x ∧ w ∈ x.workers) ∨ l = .engineStart e x'.workers := by
  cases exec_next hc hx' with
  | new _ hn =>
    rw [hn] at hw
    cases hw
  | started _ hl => exact .inr hl
  | gathered hx _ _ he | moved hx he =>
    rw [he] at hw
    exact .inl ⟨_, hx, hw⟩

theorem crashesWhole_step (hr : (system text).Reachable s) (h : CrashesWhole s)
    (hst : (system text).step s l v) : CrashesWhole v := by
  intro e x' w k' since hx' hw hk' hl
  have hc := change_of_step hst
  have hcrash : (∃ k, s.pool.workers w = some k ∧ k.life = .crashed since) ∨
      ∃ es, l = .crash es ∧ w ∈ s.workersOf es := by
    rcases pool_next hr hst with hp | ⟨a, ha, hp⟩
    · rw [hp] at hk'
      exact .inl ⟨k', hk', hl⟩
    · rcases crashed_next (move_of_step hp) hk' hl with hold | ⟨ws, rfl, hmem⟩
      · exact .inl hold
      · cases drives_of_poolAct hst ha with
        | crash es => exact .inr ⟨es, rfl, hmem⟩
        | worker hb => cases hb
  rcases hcrash with ⟨k, hk, hlk⟩ | ⟨es, rfl, hmem⟩
  · -- the worker had crashed before
    rcases member_before hc hx' hw with ⟨x, hx, hwx⟩ | rfl
    · exact (exec_kept hc hx hx').2.1 (h e x w k since hx hwx hk hlk)
    · rw [started_fresh hst w hw] at hk
      cases hk
  · -- it crashes now, and its execution with it
    rcases member_before hc hx' hw with ⟨x, hx, hwx⟩ | hl
    · obtain ⟨d, hd, hwd⟩ := List.mem_flatMap.mp hmem
      cases hy : s.execs d with
      | none =>
        rw [hy] at hwd
        cases hwd
      | some y =>
        rw [hy] at hwd
        obtain rfl := (crews_reachable hr).unique e d x y w hx hy hwx hwd
        cases hc with
        | crash =>
          simp only [SState.stopExecs, if_pos hd, hx, Option.map_some, Option.some.injEq] at hx'
          subst hx'
          split
          · assumption
          · rfl
    · cases hl

theorem crashesWhole_reachable (h : (system text).Reachable s) : CrashesWhole s := by
  refine h.induct (I := CrashesWhole) ?_ fun s l v hr hi hst => crashesWhole_step hr hi hst
  intro s hs e x w k since hx
  obtain ⟨now, rfl⟩ := hs
  cases hx

/-- A step that settles is possible. -/
def MaySettle (text : Json → String) (file : JobId → List Json) (s : SState) : Prop :=
  ∃ l v, settles l = true ∧ (system text).step s l v ∧ Undisturbed file s l

variable {file : JobId → List Json} {e : ExecId} {x : Execution}

theorem maySettle_of_step (hl : settles l = true) (hst : (sysStep text s l).isSome = true)
    (hu : Undisturbed file s l) : MaySettle text file s := by
  obtain ⟨v, hv⟩ := Option.isSome_iff_exists.mp hst
  exact ⟨l, v, hl, hv, hu⟩

/-- Only `set_state(INGESTING)` is followed by a look at the file. -/
theorem maySettle_of_other (hl : settles l = true) (hout : outside l = false)
    (hne : ∀ e elements, l ≠ .setIngesting e elements) (hu : Unexpired s.pool)
    (hst : (sysStep text s l).isSome = true) : MaySettle text file s :=
  maySettle_of_step hl hst ⟨hout, fun e _ elements he => absurd he (hne e elements), hu⟩

theorem worker_maySettle {w : WorkerId} (hu : Unexpired s.pool) (hw : runs s.pool w = true) :
    MaySettle text file s := by
  obtain ⟨a, q, ha, hadv, hst⟩ := worker_may_advance hw
  refine maySettle_of_other (l := .worker a) hadv rfl (by simp) hu ?_
  rw [sysStep, if_pos ha, show Engine.step s.pool a = some q from hst]
  rfl

/-- An engine whose workers have been started goes on when they have all left,
fails when one has raised, and waits for one that runs. -/
theorem running_maySettle (hr : (system text).Reachable s) (hu : Unexpired s.pool)
    (hx : s.execs e = some x) (hp : x.pc = .running) : MaySettle text file s := by
  by_cases hleft : ∀ w ∈ x.workers, hasLeft s.pool w = true
  · refine maySettle_of_other (l := .gathered e) rfl rfl (by simp) hu ?_
    simp only [sysStep, hx, hp, Option.bind_some]
    rw [if_pos (List.all_eq_true.mpr hleft)]
    rfl
  · push Not at hleft
    obtain ⟨w, hw, hnot⟩ := hleft
    obtain ⟨k, hk, -⟩ := (crews_reachable hr).members e x hx w hw
    cases hl : k.life with
    | running => exact worker_maySettle hu (runs_iff.mpr ⟨k, hk, hl⟩)
    | left => simp [hasLeft, hk, hl] at hnot
    | crashed since =>
      have hend := crashesWhole_reachable hr e x w k since hx hw hk hl
      rw [hp] at hend
      cases hend
    | raised since =>
      refine maySettle_of_other (l := .gatherRaises e w "") rfl rfl (by simp) hu ?_
      have hraised : hasRaised s.pool w = true := by simp [hasRaised, hk, hl]
      simp only [sysStep, hx, hp, Option.bind_some]
      rw [if_pos ⟨hw, hraised⟩]
      rfl

/-- An execution that is not over can move, or one of its workers. -/
theorem exec_maySettle (hr : (system text).Reachable s) (hu : Unexpired s.pool)
    (hx : s.execs e = some x) (hend : x.pc.ended = false) : MaySettle text file s := by
  cases hp : x.pc with
  | created =>
    refine maySettle_of_step (l := .setIngesting e (file x.job)) rfl ?_ ⟨rfl, ?_, hu⟩
    · simp only [sysStep, hx, hp, Option.bind_some, Option.isSome_some]
    · intro e' x' elements he hx'
      cases he
      obtain rfl := Option.some.inj (hx'.symm.trans hx)
      rfl
  | ingesting rest total =>
    cases rest with
    | nil =>
      refine maySettle_of_other (l := .setTotal e) rfl rfl (by simp) hu ?_
      simp only [sysStep, hx, hp, Option.bind_some, Option.isSome_some]
    | cons b rest =>
      refine maySettle_of_other (l := .flush e) rfl rfl (by simp) hu ?_
      simp only [sysStep, hx, hp, Option.bind_some, Engine.step, Option.map_some,
        Option.isSome_some]
  | ingested =>
    refine maySettle_of_other (l := .setRunning e) rfl rfl (by simp) hu ?_
    simp only [sysStep, hx, hp, Option.bind_some, Option.isSome_some]
  | starting =>
    obtain ⟨ws, hlen, hn, hnew⟩ := exists_new_workers (pool_reachable hr) x.settings.workerPoolSize
    refine maySettle_of_other (l := .engineStart e ws) rfl rfl (by simp) hu ?_
    obtain ⟨q, hq⟩ : ∃ q, Engine.step s.pool (.start ws x.job x.settings) = some q :=
      ⟨_, if_pos hnew⟩
    simp only [sysStep, hx, hp, Option.bind_some, hq, Option.map_some]
    rw [if_pos ⟨hlen, hn⟩]
    rfl
  | running => exact running_maySettle hr hu hx hp
  | gathered =>
    refine maySettle_of_other (l := .setCompleted e) rfl rfl (by simp) hu ?_
    simp only [sysStep, hx, hp, Option.bind_some, Option.isSome_some]
  | failing msg =>
    refine maySettle_of_other (l := .setFailed e) rfl rfl (by simp) hu ?_
    simp only [sysStep, hx, hp, Option.bind_some, Option.isSome_some]
  | finished | failed | raised | dead =>
    rw [hp] at hend
    cases hend

end progress

/-! ## Job states -/

/-- The execution has set the last state that it sets. -/
def Pc.closed : Pc → Bool
  | .finished | .failed => true
  | _ => false

/-- A job that is not COMPLETED or FAILED has an execution that has not set its
last state. -/
def Served (s : SState) : Prop :=
  ∀ job row, s.jobs.get job = some row → terminalState row.state = false →
    ∃ e x, s.execs e = some x ∧ x.job = job ∧ x.standalone = false ∧ x.pc.closed = false

section jobs
variable {text : Json → String} {s v : SState} {l : SAct}

theorem state_of_setState {t : Jobs} {job : JobId} {st : JobState} {err : Option String}
    {row : JobRow} (h : (t.setState job st err).get job = some row) : row.state = st := by
  rw [Jobs.setState, Jobs.get_update, Option.map_eq_some_iff] at h
  obtain ⟨r, hr, he⟩ := h
  rw [if_pos (Jobs.get_id hr)] at he
  rw [← he]

/-- An execution that sets its last state makes it that of the job. -/
theorem closed_next (hc : Change text s l v) {e : ExecId} {x x' : Execution} {row : JobRow}
    (hx : s.execs e = some x) (hx' : v.execs e = some x') (hopen : x.pc.closed = false)
    (hrow : v.jobs.get x.job = some row) (ht : terminalState row.state = false) :
    x'.pc.closed = false := by
  cases execTurn_of_change hc hx' with
  | same h₀ =>
    obtain rfl := Option.some.inj (h₀.symm.trans hx)
    exact hopen
  | submit hn | resume hn | runWorker hn =>
    rw [hn] at hx
    cases hx
  | setIngesting | flush | setTotal | setRunning | engineStart | gathered | handlerRaises | crash =>
    rfl
  | @gatherRaises y _ msg | @raise y msg =>
    show (y.except msg).closed = false
    unfold Execution.except
    split <;> rfl
  | setCompleted =>
    cases hc with
    | setCompleted hx₀ =>
      obtain rfl := Option.some.inj (hx₀.symm.trans hx)
      rw [state_of_setState (t := s.jobs) hrow] at ht
      cases ht
  | setFailed =>
    cases hc with
    | setFailed hx₀ =>
      obtain rfl := Option.some.inj (hx₀.symm.trans hx)
      rw [state_of_setState (t := s.jobs) hrow] at ht
      cases ht

/-- Whoever sets a state that is not terminal has another one to set. -/
theorem open_setter (hs : StandaloneOk s) (hc : Change text s l v) {e : ExecId} {x : Execution}
    {st : JobState} {err : Option String} (hx : s.execs e = some x) (hp : Sets e l x.pc st err)
    (ht : terminalState st = false) :
    ∃ x', v.execs e = some x' ∧ x'.job = x.job ∧ x'.standalone = false ∧ x'.pc.closed = false := by
  have own : x.pc.own = true → x.standalone = false := by
    intro h
    by_contra hne
    rw [hs e x hx (Bool.eq_true_of_not_eq_false hne)] at h
    cases h
  generalize hpc : x.pc = pc at hp own
  cases hp with
  | completed | failed => cases ht
  | ingesting elements =>
    cases hc with
    | setIngesting _ hx₀ =>
      obtain rfl := Option.some.inj (hx₀.symm.trans hx)
      exact ⟨_, if_pos rfl, rfl, own rfl, rfl⟩
  | running =>
    cases hc with
    | setRunning hx₀ =>
      obtain rfl := Option.some.inj (hx₀.symm.trans hx)
      exact ⟨_, if_pos rfl, rfl, own rfl, rfl⟩

theorem served_step (hs : StandaloneOk s) (h : Served s) (hc : Change text s l v) : Served v := by
  intro job row' hrow' ht
  have keep : ∀ row, s.jobs.get job = some row → row.state = row'.state →
      ∃ e x, v.execs e = some x ∧ x.job = job ∧ x.standalone = false ∧ x.pc.closed = false := by
    intro row hrow he
    obtain ⟨e, x, hx, rfl, hsa, hopen⟩ := h job row hrow (he ▸ ht)
    obtain ⟨x', hx'⟩ := exec_persists hc hx
    refine ⟨e, x', hx', exec_job hc hx hx', (exec_kept hc hx hx').1.trans hsa, ?_⟩
    exact closed_next hc hx hx' hopen hrow' ht
  cases job_next hc hrow' with
  | same hrow => exact keep row' hrow rfl
  | total _ _ _ _ hrow he =>
    refine keep _ hrow ?_
    rw [he]
  | created hl =>
    subst hl
    cases hc with
    | submit => exact ⟨_, _, if_pos rfl, rfl, rfl, rfl⟩
  | @state e x r st err hx hj hp hrow he =>
    rw [he] at ht
    obtain ⟨x', hx', hj', hrest⟩ := open_setter hs hc hx hp ht
    exact ⟨e, x', hx', hj'.trans hj, hrest⟩

theorem served_reachable (h : (system text).Reachable s) : StandaloneOk s ∧ Served s := by
  refine h.induct (I := fun s => StandaloneOk s ∧ Served s) ?_ fun s l v _ hi hst => ?_
  · intro s hs
    obtain ⟨now, rfl⟩ := hs
    refine ⟨fun e x hx => ?_, fun job row hrow => ?_⟩
    · cases hx
    · cases hrow
  · have hc := change_of_step hst
    exact ⟨standaloneOk_step hi.1 hc, served_step hi.1 hi.2 hc⟩

end jobs

/-! ## The end -/

/-- All executions are over and no worker runs. -/
structure AllOver (s : SState) : Prop where
  execs : ∀ e x, s.execs e = some x → x.pc.ended = true
  workers : ∀ w k, s.pool.workers w = some k → k.life ≠ .running

section finished
variable {text : Json → String} {s v : SState} {l : SAct}

/-- What is left is the clock and what finished workers cannot do. -/
theorem allOver_moves (h : AllOver s) (hst : (system text).step s l v) (hout : outside l = false) :
    ∃ a p, l = .worker a ∧ v = { s with pool := p } ∧ byWorker a = true ∧
      pool.step s.pool a p := by
  have idle : ∀ {e x}, s.execs e = some x → x.pc.ended = false → False := by
    intro e x hx hend
    rw [h.execs e x hx] at hend
    cases hend
  cases change_of_step hst with
  | submit | resume | runWorker | crash => cases hout
  | setIngesting _ hx hp | flush hx hp | setTotal hx hp | setRunning hx hp | engineStart hx hp
  | gathered hx hp | setCompleted hx hp | gatherRaises hx hp | handlerRaises hx hp
  | setFailed hx hp => exact (idle hx (by rw [hp]; rfl)).elim
  | raise hx hp =>
    rcases hp with hp | ⟨rest, total, hp⟩ | hp | hp <;> exact (idle hx (by rw [hp]; rfl)).elim
  | worker ha hpool => exact ⟨_, _, rfl, rfl, ha, hpool⟩

/-- Where nobody is left, nothing settles. -/
theorem allOver_quiet (h : AllOver s) (hl : settles l = true) : ¬ (system text).step s l v := by
  intro hst
  have hout : outside l = false := by
    cases l with
    | worker a => rfl
    | submit | resume | runWorker | crash => cases hl
    | setIngesting | flush | setTotal | setRunning | engineStart | gathered | setCompleted
    | gatherRaises | raise | setFailed => rfl
  obtain ⟨a, p, rfl, -, -, hpool⟩ := allOver_moves h hst hout
  have hl : advances a = true := hl
  cases move_of_step hpool with
  | tick | bulkInsert | start | renew | renewFails | writePart | crash => cases hl
  | leave hk hrun | claim hk hrun | processed hk hrun | dropped hk hrun | written hk hrun
  | complete hk hrun | raise hk hrun => exact h.workers _ _ hk hrun

/-- It stays so. -/
theorem allOver_step (h : AllOver s) (hst : (system text).step s l v) (hout : outside l = false) :
    AllOver v := by
  obtain ⟨a, p, rfl, rfl, ha, hpool⟩ := allOver_moves h hst hout
  refine ⟨h.execs, fun w k hk => ?_⟩
  have hm := move_of_step hpool
  rcases started_step hm hk with ⟨k₀, hk₀⟩ | ⟨ws, job, settings, rfl, -⟩
  · cases life_next hm hk with
    | new hn =>
      rw [hk₀] at hn
      cases hn
    | same hk => exact h.workers w k hk
    | moved hk hs hl | left hk hl | stopped hk hl => exact absurd hl (h.workers w _ hk)
  · cases ha

end finished

/-! ## Headline -/

section settled
variable {text : Json → String} {file : JobId → List Json} {s₀ s : SState}

/-- What holds in the runs from `s₀` on, with a bound for the rank. -/
structure Settling (text : Json → String) (file : JobId → List Json) (es : Finset ExecId) (K : Nat)
    (s : SState) : Prop where
  reachable : (system text).Reachable s
  execs : ∀ e x, s.execs e = some x → e ∈ es
  budget : rowBudget text file es s ≤ K

theorem settling_reachable (h₀ : (system text).Reachable s₀) (file : JobId → List Json) :
    ∃ es K, ∀ s, (settling text file s₀).Reachable s → Settling text file es K s := by
  obtain ⟨tr, hrun⟩ := h₀
  have hin : ∀ e x, s₀.execs e = some x → e ∈ (tr.flatMap fun t => createdBy t.lbl).toFinset :=
    fun e x hx => List.mem_toFinset.mpr (created_run hrun e x hx)
  generalize (tr.flatMap fun t => createdBy t.lbl).toFinset = es at hin
  refine ⟨es, rowBudget text file es s₀, fun s hs => ?_⟩
  refine hs.induct (I := Settling text file es (rowBudget text file es s₀)) ?_
    fun s l v _ hi hst => ?_
  · intro s hs
    obtain rfl : s = s₀ := hs
    exact ⟨⟨tr, hrun⟩, hin, Nat.le_refl _⟩
  · obtain ⟨hstep, hu⟩ := hst
    refine ⟨hi.reachable.step hstep, fun e x' hx' => ?_, ?_⟩
    · obtain ⟨x, hx⟩ := execs_stay (change_of_step hstep) hu.alone hx'
      exact hi.execs e x hx
    · exact Nat.le_trans (sysRank_step hi.reachable hi.execs hi.budget hstep hu).2 hi.budget

theorem settling_ranked (h₀ : (system text).Reachable s₀) (file : JobId → List Json) :
    ∃ rank, (settling text file s₀).Ranked settles rank := by
  obtain ⟨es, K, h⟩ := settling_reachable h₀ file
  have step : ∀ s l v, (settling text file s₀).Reachable s → (settling text file s₀).step s l v →
      sysRank text file es K v + (settles l).toNat ≤ sysRank text file es K s := by
    intro s l v hs hst
    obtain ⟨hreach, hin, hbudget⟩ := h s hs
    exact (sysRank_step hreach hin hbudget hst.1 hst.2).1
  refine ⟨sysRank text file es K, ?_, ?_⟩
  · intro s l v hs hst
    exact Nat.le_trans (Nat.le_add_right _ _) (step s l v hs hst)
  · intro s l v hs hst hl
    have hle := step s l v hs hst
    rw [hl] at hle
    exact hle

/-- Whoever is left at the end of a job that is not COMPLETED or FAILED. -/
theorem job_over (hr : (system text).Reachable s) (hover : AllOver s) {job : JobId} {row : JobRow}
    (hrow : s.jobs.get job = some row) : terminalState row.state = true ∨
      ∃ e x, s.execs e = some x ∧ x.job = job ∧ x.standalone = false ∧
        (x.pc = .dead ∨ x.pc = .raised) := by
  cases ht : terminalState row.state with
  | true => exact .inl rfl
  | false =>
    obtain ⟨e, x, hx, hj, hsa, hopen⟩ := (served_reachable hr).2 job row hrow ht
    refine .inr ⟨e, x, hx, hj, hsa, ?_⟩
    have hend := hover.execs e x hx
    cases hp : x.pc with
    | dead => exact .inl rfl
    | raised => exact .inr rfl
    | finished | failed =>
      rw [hp] at hopen
      cases hopen
    | created | ingesting | ingested | starting | running | gathered | failing =>
      rw [hp] at hend
      cases hend

/-- Where nothing settles any more, everything is over. -/
theorem allOver_of_quiet (hr : (system text).Reachable s) (hu : Unexpired s.pool)
    (hquiet : ¬ MaySettle text file s) : AllOver s := by
  refine ⟨fun e x hx => ?_, fun w k hk hl => ?_⟩
  · by_contra hne
    exact hquiet (exec_maySettle hr hu hx (Bool.eq_false_of_not_eq_true hne))
  · exact hquiet (worker_maySettle hu (runs_iff.mpr ⟨k, hk, hl⟩))

/-- **Every job ends.** From every reachable state, with whatever was running in
however many processes: if nothing new is scheduled, no process crashes, no lease
runs out under a running worker and the files stay what they are, then every fair
schedule of executions, workers and clock, with whatever answers and exceptions,
comes to a state from which on all executions are over and no worker runs. Each
job is then COMPLETED or FAILED, unless one of its executions was killed or its
error handler raised. -/
theorem every_job_ends (h₀ : (system text).Reachable s₀) {state : Nat → SState} {label : Nat → SAct}
    (hs : (settling text file s₀).Schedule state label)
    (hf : (settling text file s₀).Fair settles state label) :
    ∃ n, ∀ m, n ≤ m → AllOver (state m) ∧ ∀ job row, (state m).jobs.get job = some row →
      terminalState row.state = true ∨ ∃ e x, (state m).execs e = some x ∧ x.job = job ∧
        x.standalone = false ∧ (x.pc = .dead ∨ x.pc = .raised) := by
  obtain ⟨rank, hrank⟩ := settling_ranked h₀ file
  obtain ⟨es, K, hset⟩ := settling_reachable h₀ file
  have hreach : ∀ m, (system text).Reachable (state m) :=
    fun m => (hset _ (hs.reachable m)).reachable
  obtain ⟨n, hn⟩ := hrank.ends hs hf
  have hover : AllOver (state n) := allOver_of_quiet (hreach n) (hs.step n).2.leases hn
  refine ⟨n, fun m hm => ?_⟩
  have hstays : AllOver (state m) := by
    induction hm with
    | refl => exact hover
    | step _ ih => exact allOver_step ih (hs.step _).1 (hs.step _).2.alone
  exact ⟨hstays, fun job row hrow => job_over (hreach m) hstays hrow⟩

end settled

/-! ## Non-vacuity -/

/-- `Undisturbed` of a transition whose file is read as it should be. -/
def undisturbedIn (t : Trans SState SAct) : Bool :=
  !outside t.lbl && t.pre.pool.items.rows.all fun r =>
    !inHand t.pre.pool r || !leaseExpired t.pre.pool.now r

theorem undisturbed_of_check {t : Trans SState SAct} {file : JobId → List Json}
    (h : undisturbedIn t = true)
    (hfile : ∀ e elements, t.lbl = .setIngesting e elements → ∀ job, elements = file job) :
    Undisturbed file t.pre t.lbl := by
  obtain ⟨hout, hrows⟩ := Bool.and_eq_true_iff.mp h
  refine ⟨by simpa using hout, fun e x elements hl _ => hfile e elements hl x.job, ?_⟩
  intro r hr hin
  have hrow := List.all_eq_true.mp hrows r hr
  rw [hin] at hrow
  simpa using hrow

/-- `AllOver` of what a run has created. -/
def overIn (es : List ExecId) (s : SState) : Bool :=
  es.all fun e => (s.execs e).all fun x => x.pc.ended && x.workers.all fun w => !runs s.pool w

theorem allOver_of_check {text : Json → String} {tr : List (Trans SState SAct)} {s : SState}
    (hrun : (system text).Run tr s)
    (h : overIn (tr.flatMap fun t => createdBy t.lbl) s = true) : AllOver s := by
  have hexec : ∀ e x, s.execs e = some x →
      x.pc.ended = true ∧ ∀ w ∈ x.workers, runs s.pool w = false := by
    intro e x hx
    have hall := List.all_eq_true.mp h e (created_run hrun e x hx)
    rw [hx, Option.all_some, Bool.and_eq_true, List.all_eq_true] at hall
    exact ⟨hall.1, fun w hw => by simpa using hall.2 w hw⟩
  refine ⟨fun e x hx => (hexec e x hx).1, fun w k hk hl => ?_⟩
  obtain ⟨e, x, hx, hw, -⟩ := worker_execution hrun.reachable hk
  have hstop := (hexec e x hx).2 w hw
  rw [runs_iff.mpr ⟨k, hk, hl⟩] at hstop
  cases hstop

/-- A process dies with the row claimed; the lease runs out, and another process
resumes the job. -/
def killedRun : List SAct :=
  [.submit 0 "j" "in.json" none oneWorker, .setIngesting 0 fileA, .flush 0, .setTotal 0,
    .setRunning 0, .engineStart 0 ["w1"], .worker (.claim "w1" chunk1 [⟨1, "a", "hi", 1⟩]),
    .crash [0], .worker (.tick 120000001), .resume [1] oneWorker]

def settlingRun : List SAct :=
  [.setIngesting 1 fileA, .flush 1, .setTotal 1, .setRunning 1, .engineStart 1 ["w2"],
    .worker (.claim "w2" chunk2 [⟨1, "a", "hi", 2⟩]),
    .worker (.processed "w2" (answer "two") (fun _ => 5)), .worker (.written "w2"),
    .worker (.complete "w2" 1), .worker (.claim "w2" chunk1 []), .gathered 1, .setCompleted 1]

theorem every_job_ends_resumed : ∃ s₀ state label, (system noText).Reachable s₀ ∧
    s₀.pool.items.rows.map (·.status) = [.claimed] ∧
    (settling noText (fun _ => fileA) s₀).Schedule state label ∧
    (settling noText (fun _ => fileA) s₀).Fair settles state label ∧
    ∃ n, ∀ m, n ≤ m → AllOver (state m) ∧ ∀ job row, (state m).jobs.get job = some row →
      terminalState row.state = true ∨ ∃ e x, (state m).execs e = some x ∧ x.job = job ∧
        x.standalone = false ∧ (x.pc = .dead ∨ x.pc = .raised) := by
  obtain ⟨⟨tr₀, s₀⟩, he₀, hrow, ⟨tr, s⟩, he, hends, hq, hlast, hleft⟩ : ∃ p,
      LTS.exec (sysStep noText) (.init 0) killedRun = some p ∧
      p.2.pool.items.rows.map (·.status) = [.claimed] ∧
      ∃ q, LTS.exec (sysStep noText) p.2 settlingRun = some q ∧
        overIn ((p.1 ++ q.1).flatMap fun t => createdBy t.lbl) q.2 = true ∧
        (∀ t ∈ q.1, undisturbedIn t = true) ∧
        q.1.getLast?.all (fun t => settles t.lbl) = true ∧
        undisturbedIn ⟨q.2, .worker (.tick 0), q.2⟩ = true :=
    ⟨_, rfl, rfl, _, rfl, by decide +kernel, by decide +kernel, by decide +kernel,
      by decide +kernel⟩
  have hr : (system noText).Reachable s₀ := ⟨tr₀, _, ⟨0, rfl⟩, LTS.path_of_exec he₀⟩
  have hpath : (system noText).Path s₀ tr s := LTS.path_of_exec he
  have hover : AllOver s :=
    allOver_of_check ⟨_, ⟨0, rfl⟩, (LTS.path_of_exec he₀).append hpath⟩ hends
  have hfile : ∀ l ∈ settlingRun, ∀ e elements, l = .setIngesting e elements →
      ∀ job : JobId, elements = (fun _ => fileA) job := by
    intro l hl e elements he job
    subst he
    simp only [settlingRun, List.mem_cons, SAct.setIngesting.injEq, reduceCtorEq, List.not_mem_nil,
      or_false] at hl
    exact hl.2
  have hsettling : (settling noText (fun _ => fileA) s₀).Path s₀ tr s := by
    refine LTS.Path.restrict (M := (system noText).startAt s₀) hpath.startAt fun t ht => ?_
    exact undisturbed_of_check (hq t ht) (hfile _ (LTS.lbl_of_exec he t ht))
  obtain ⟨state, label, hs, hf⟩ : ∃ state label,
      (settling noText (fun _ => fileA) s₀).Schedule state label ∧
        (settling noText (fun _ => fileA) s₀).Fair settles state label := by
    refine LTS.exists_schedule (l := .worker (.tick 0)) rfl hsettling ?_ ⟨?_, ?_⟩ ?_
    · intro t ht
      rw [Option.mem_def.mp ht, Option.all_some] at hlast
      exact hlast
    · show sysStep noText s (.worker (.tick 0)) = some s
      simp [sysStep, byWorker, Engine.step]
    · exact undisturbed_of_check hleft fun _ _ hl => (by cases hl)
    · intro hmay
      obtain ⟨l, v, hl, hst, -⟩ := hmay
      exact allOver_quiet hover hl hst
  obtain ⟨n, hn⟩ := every_job_ends hr hs hf
  exact ⟨s₀, state, label, hr, hrow, hs, hf, n, hn⟩

end BatchSystem.Service
