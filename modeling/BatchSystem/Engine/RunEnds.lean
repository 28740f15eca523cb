import BatchSystem.Core.Progress
import BatchSystem.Engine.Heartbeat
import BatchSystem.Engine.RunBooks

/-!
# A run comes to its end

The clock, the renewals and the parts of a file that become visible may go on
for ever; every other step of a run lowers a rank (`run_ranked`): the rows
without a coroutine, what each coroutine has to do, and what each worker has to
do. Unless all workers have left, such a step is possible (`may_progress`): a
worker that gathers waits for its coroutines, and these wait for a permit only
while others hold all of them.
-/
namespace BatchSystem.Engine

open BatchSystem.Core Domain Queue Storage PState

/-- All but the clock, the heartbeats and a file that is being written. -/
def RunAct.progress : RunAct → Bool
  | .pool (.tick _) | .pool (.renew _) | .pool (.writePart ..) => false
  | .pool _ | .row .. | .gathered _ => true

/-- All worker loops have ended. -/
def AllLeft (e : EngineRun) (s : RunState) : Prop :=
  ∀ w ∈ e.workers, ∃ k, s.pool.workers w = some k ∧ k.life = .left

/-! ## The rank -/

/-- More than the steps that the coroutine has before it. -/
def RowTask.rank (τ : RowTask) : Nat :=
  match τ.stage with
  | .waiting => 2 * τ.settings.retryMaxAttempts + 3
  | .calling st => 2 * (τ.settings.retryMaxAttempts - st.attempt) + 2
  | .sleeping st => 2 * (τ.settings.retryMaxAttempts - st.attempt) + 1
  | .returned .. | .raised | .cancelled => 0

def Worker.rank (k : Worker) : Nat :=
  match k.life, k.phase with
  | .running, .claiming => 1
  | .running, .processing .. => 4
  | .running, .writing .. => 3
  | .running, .completing .. => 2
  | .left, _ | .raised _, _ | .crashed _, _ => 0

namespace EngineRun
variable (e : EngineRun)

/-- The rows that the run has to process. -/
def pendingRows (s₀ : PState) : List ItemRow := s₀.items.rows.filter e.takes

def workersRank (p : PState) : Nat :=
  ∑ w ∈ e.workers.toFinset, (p.workers w).elim 0 Worker.rank

def tasksRank (s₀ : PState) (p : Proc) : Nat :=
  ((e.pendingRows s₀).length - p.tasks.length) * (2 * e.settings.retryMaxAttempts + 7) +
    (p.tasks.map RowTask.rank).sum

def rank (s₀ : PState) (s : RunState) : Nat := e.tasksRank s₀ s.proc + e.workersRank s.pool

end EngineRun

theorem nextAttempt_rank (cid : ChunkId) (settings : Settings) (item : ClaimedItem)
    (latencyMs : Int) (n : Nat) (st : RowState) :
    RowTask.rank ⟨cid, settings, item, nextAttempt settings item latencyMs n st⟩ =
      if n < settings.retryMaxAttempts then 2 * (settings.retryMaxAttempts - n) + 2 else 0 := by
  unfold nextAttempt
  split <;> rfl

theorem rank_row {τ : RowTask} {latencyMs : Int} {act : RowAct} {v : Stage} {es : List Effect}
    (h : τ.step latencyMs act = some (v, es)) : RowTask.rank { τ with stage := v } < τ.rank := by
  have hnext := nextAttempt_rank τ.chunkId τ.settings τ.item latencyMs
  cases act with
  | raise =>
    cases hs : τ.stage <;> simp only [RowTask.step, hs] at h <;> cases h <;>
      simp [RowTask.rank, hs]
  | enter =>
    cases hs : τ.stage <;> simp only [RowTask.step, hs] at h <;> cases h
    rw [hnext, RowTask.rank, hs]
    split <;> simp
  | wake =>
    cases hs : τ.stage <;> simp only [RowTask.step, hs] at h <;> cases h
    rename_i st
    rw [hnext, RowTask.rank, hs]
    split <;> simp only <;> omega
  | answer o =>
    cases hs : τ.stage <;> simp only [RowTask.step, hs] at h <;> cases h
    rename_i st
    cases o with
    | success | permanent | unexpected => simp [RowTask.rank, hs, answered]
    | retryable msg =>
      simp only [answered]
      split
      · simp only [RowTask.rank, hs]
        omega
      · rw [hnext, RowTask.rank, hs]
        split <;> simp only <;> omega

section steps
variable {e : EngineRun} {s₀ : PState} {s v : RunState} {l : RunAct}

theorem workersRank_set {p u : PState} {w : WorkerId} (hw : w ∈ e.workers) {k : Worker}
    (hk : p.workers w = some k) (hu : u.workers = p.workers) (k' : Worker) :
    e.workersRank (u.setWorker w k') + k.rank = e.workersRank p + k'.rank := by
  have h := LTS.sum_change (f := fun x => (p.workers x).elim 0 Worker.rank)
    (g := fun x => ((u.setWorker w k').workers x).elim 0 Worker.rank) (List.mem_toFinset.mpr hw)
    fun x _ hne => by simp only [setWorker_ne hne, hu]
  simp only [hk, setWorker_same, Option.elim_some] at h
  exact h

/-- Every coroutine is for another row. -/
theorem tasks_length (hr : RunRows e s₀ s) : s.proc.tasks.length ≤ (e.pendingRows s₀).length := by
  have hsub : s.proc.tasks.map (·.item.id) ⊆ (e.pendingRows s₀).map ItemRow.id := by
    intro id hid
    obtain ⟨τ, hτ, rfl⟩ := List.mem_map.mp hid
    obtain ⟨r₀, hr₀, ht, he⟩ := hr.source τ hτ
    exact List.mem_map.mpr ⟨r₀, List.mem_filter.mpr ⟨hr₀, ht⟩, by rw [he]; rfl⟩
  simpa using (hr.nodup.subperm hsub).length_le

theorem tasksRank_row {p : Proc} {i : Nat} {τ : RowTask} {latencyMs : Int} {act : RowAct}
    {u : Stage} {es : List Effect} {q : Proc} (hτ : p.tasks[i]? = some τ)
    (hs : τ.step latencyMs act = some (u, es)) :
    e.tasksRank s₀ { q with tasks := p.tasks.set i { τ with stage := u } } + 1 ≤
      e.tasksRank s₀ p := by
  have hsum := sum_map_set (f := RowTask.rank) (b := { τ with stage := u }) hτ
  have hlt := rank_row hs
  simp only [EngineRun.tasksRank, List.length_set]
  omega

/-- A claim turns rows into coroutines, and pays for the worker that gathers. -/
theorem tasksRank_gather {p : Proc} (cid : ChunkId) {chunk : List ClaimedItem} (hne : chunk ≠ [])
    (hle : (p.gather cid e.settings chunk).tasks.length ≤ (e.pendingRows s₀).length) :
    e.tasksRank s₀ (p.gather cid e.settings chunk) + 4 ≤ e.tasksRank s₀ p := by
  have hpos := List.length_pos_of_ne_nil hne
  have hlen : (p.gather cid e.settings chunk).tasks.length = p.tasks.length + chunk.length := by
    simp [Proc.gather]
  have hsum : ((p.gather cid e.settings chunk).tasks.map RowTask.rank).sum =
      (p.tasks.map RowTask.rank).sum + chunk.length * (2 * e.settings.retryMaxAttempts + 3) := by
    simp [Proc.gather, Function.comp_def, RowTask.rank]
  rw [hlen] at hle
  obtain ⟨d, hd⟩ := Nat.exists_eq_add_of_le hle
  simp only [EngineRun.tasksRank, hlen, hsum, hd]
  rw [show p.tasks.length + chunk.length + d - (p.tasks.length + chunk.length) = d by omega,
    show p.tasks.length + chunk.length + d - p.tasks.length = chunk.length + d by omega,
    Nat.add_mul]
  have hsplit : chunk.length * (2 * e.settings.retryMaxAttempts + 7) =
      chunk.length * (2 * e.settings.retryMaxAttempts + 3) + chunk.length * 4 := by
    rw [← Nat.mul_add]
  omega

/-- A worker moves; what it does to the coroutines may pay for it. -/
theorem rank_setWorker {q : Proc} {u : PState} {w : WorkerId} (hw : w ∈ e.workers) {k k' : Worker}
    (hk : s.pool.workers w = some k) (hu : u.workers = s.pool.workers) {a b : Nat}
    (ht : e.tasksRank s₀ q + a ≤ e.tasksRank s₀ s.proc) (hb : k'.rank + b ≤ k.rank + a) :
    e.rank s₀ ⟨u.setWorker w k', q⟩ + b ≤ e.rank s₀ s := by
  have := workersRank_set hw hk hu k'
  unfold EngineRun.rank
  simp only
  omega

/-- No step raises the rank, and progress lowers it. -/
theorem rank_step (hr : RunRows e s₀ v) (hm : RunMove e s l v) :
    e.rank s₀ v + l.progress.toNat ≤ e.rank s₀ s := by
  cases hm with
  | @row i latencyMs τ act u es q hτ hn hs hq =>
    have htask : e.tasksRank s₀ { q with tasks := s.proc.tasks.set i { τ with stage := u } } + 1 ≤
      e.tasksRank s₀ s.proc := tasksRank_row hτ hs
    unfold EngineRun.rank RunAct.progress
    simp only [Bool.toNat_true]
    omega
  | gathered hw hk hl hp hg =>
    refine rank_setWorker (a := 0) hw hk rfl (Nat.le_refl _) ?_
    simp [Worker.rank, hl, hp, RunAct.progress]
  | @pool a p ha hst =>
    cases move_of_step hst with
    | bulkInsert | start | renewFails | raise | crash | processed | dropped => cases ha
    | tick | writePart => exact Nat.le_refl _
    | @leave w k cid hk hl hp =>
      have hsame : e.spawn s.proc (.claim w cid []) = s.proc := by
        simp [EngineRun.spawn, Proc.gather]
      rw [hsame]
      refine rank_setWorker (a := 0) (mem_of_ours (ours_of_owns ha) rfl) hk rfl (Nat.le_refl _) ?_
      simp [Worker.rank, hl, hp, RunAct.progress]
    | @claim w k cid chunk hk hl hp hne =>
      refine rank_setWorker (mem_of_ours (ours_of_owns ha) rfl) hk rfl
        (tasksRank_gather cid hne (tasks_length hr)) ?_
      simp [Worker.rank, hl, hp, RunAct.progress]
    | @renew w k cid chunk wake hk hl hp =>
      refine rank_setWorker (a := 0) (mem_of_ours (ours_of_owns ha) rfl) hk rfl (Nat.le_refl _) ?_
      simp [Worker.rank, hl, hp, RunAct.progress]
    | @written w k cid chunk results hk hl hp =>
      refine rank_setWorker (a := 0) (mem_of_ours (ours_of_owns ha) rfl) hk rfl (Nat.le_refl _) ?_
      simp [Worker.rank, hl, hp, RunAct.progress]
    | @complete w k cid chunk results ref hk hl hp =>
      refine rank_setWorker (a := 0) (mem_of_ours (ours_of_owns ha) rfl) hk rfl (Nat.le_refl _) ?_
      simp [Worker.rank, hl, hp, RunAct.progress]

theorem run_ranked (h₀ : Startable e s₀) : (e.live s₀).Ranked RunAct.progress (e.rank s₀) := by
  have hstep : ∀ s l v, (e.live s₀).Reachable s → (e.live s₀).step s l v →
      e.rank s₀ v + l.progress.toNat ≤ e.rank s₀ s := by
    intro s l v hs hst
    exact rank_step (runBooks_reachable h₀ (hs.step hst)).rows (runMove_of_step hst.1)
  refine ⟨fun s l v hs hst => ?_, fun s l v hs hst hl => ?_⟩
  · exact Nat.le_trans (Nat.le_add_right _ _) (hstep s l v hs hst)
  · have := hstep s l v hs hst
    rw [hl] at this
    exact this

/-! ## Something is possible -/

theorem applyAll_total {p : Proc} {es : List Effect} (h : .acquire ∉ es) :
    ∃ q, p.applyAll es = some q := by
  induction es generalizing p with
  | nil => exact ⟨p, rfl⟩
  | cons x es ih =>
    obtain ⟨hx, hes⟩ := not_or.mp (mt List.mem_cons.mpr h)
    cases x with
    | acquire => exact absurd rfl hx
    | inc | dec | release => exact ih hes

theorem leave_no_acquire (v : Stage) : .acquire ∉ leave v := by
  unfold leave
  split <;> simp

/-- A coroutine that is not over can move, if it holds a permit or one is free. -/
theorem row_possible {i : Nat} {τ : RowTask} {act : RowAct} (hτ : s.proc.tasks[i]? = some τ)
    (hn : τ.next (e.client τ.item.id) = some act) (hp : τ.stage.active = true ∨ 0 < s.proc.sem) :
    ∃ v, e.step s (.row i 0) = some v := by
  obtain ⟨u, es, hs, q, hq⟩ : ∃ u es, τ.step 0 act = some (u, es) ∧
      ∃ q, s.proc.applyAll es = some q := by
    unfold RowTask.next at hn
    cases hst : τ.stage with
    | waiting =>
      rw [hst] at hn hp
      cases hn
      have hpos : 0 < s.proc.sem := hp.resolve_left (by simp [Stage.active])
      refine ⟨_, _, by simp only [RowTask.step, hst]; rfl, ?_⟩
      simp only [Proc.applyAll, Proc.apply, if_pos hpos, Option.bind_some]
      exact applyAll_total (leave_no_acquire _)
    | calling st =>
      rw [hst] at hn
      cases hn
      exact ⟨_, _, by simp only [RowTask.step, hst]; rfl, applyAll_total (leave_no_acquire _)⟩
    | sleeping st =>
      rw [hst] at hn
      cases hn
      exact ⟨_, _, by simp only [RowTask.step, hst]; rfl, applyAll_total (leave_no_acquire _)⟩
    | returned | raised | cancelled =>
      rw [hst] at hn
      cases hn
  refine ⟨⟨s.pool, { q with tasks := s.proc.tasks.set i { τ with stage := u } }⟩, ?_⟩
  simp only [EngineRun.step, Proc.step, hτ, Option.bind_some, hn, hs, hq, Option.map_some]

theorem gathered_none {tasks : List RowTask} (h : gathered tasks = none) :
    ∃ τ ∈ tasks, τ.result = none := by
  induction tasks with
  | nil => cases h
  | cons τ rest ih =>
    cases hr : τ.result with
    | none => exact ⟨τ, List.mem_cons_self, hr⟩
    | some res =>
      simp only [gathered, hr, Option.bind_some, Option.map_eq_none_iff] at h
      obtain ⟨τ', hτ', hr'⟩ := ih h
      exact ⟨τ', List.mem_cons_of_mem _ hτ', hr'⟩

/-- A coroutine of the run that has not returned is not over. -/
theorem next_of_unreturned {τ : RowTask} (hc : Computes e τ) (hr : τ.result = none) :
    ∃ act, τ.next (e.client τ.item.id) = some act := by
  have ho := hc.outcome
  cases hs : τ.stage with
  | waiting | calling | sleeping => exact ⟨_, by simp only [RowTask.next, hs]; rfl⟩
  | returned text =>
    simp only [RowTask.result, hs] at hr
    cases text <;> cases hr
  | raised | cancelled =>
    simp only [RowTask.outcome, hs] at ho
    cases ho

/-- While a coroutine has not returned, one of them can move: it, or one that
holds a permit. -/
theorem some_row_possible (hw : Working e s₀ s) (hsem : 0 < s.proc.sem + s.proc.active)
    {τ : RowTask} (hτ : τ ∈ s.proc.tasks) (hr : τ.result = none) :
    ∃ i v, e.step s (.row i 0) = some v := by
  have possible : ∀ τ ∈ s.proc.tasks, τ.result = none →
      τ.stage.active = true ∨ 0 < s.proc.sem → ∃ i v, e.step s (.row i 0) = some v := by
    intro τ hτ hr hp
    obtain ⟨i, hi⟩ := List.getElem?_of_mem hτ
    obtain ⟨act, hn⟩ := next_of_unreturned (hw.computes τ hτ) hr
    exact ⟨i, row_possible hi hn hp⟩
  by_cases hfree : 0 < s.proc.sem
  · exact possible τ hτ hr (.inr hfree)
  · have hactive : 0 < s.proc.tasks.countP (·.stage.active) := by
      show 0 < s.proc.active
      omega
    obtain ⟨τ', hτ', ha⟩ := List.countP_pos_iff.mp hactive
    refine possible τ' hτ' ?_ (.inl ha)
    unfold RowTask.result
    cases hs : τ'.stage with
    | returned =>
      rw [hs] at ha
      cases ha
    | _ => rfl

/-- Every permit is free or held by a body. -/
theorem permits_reachable (h : (e.system s₀).Reachable s) : 0 < s.proc.sem + s.proc.active := by
  obtain ⟨tr, hr⟩ := h
  obtain ⟨hb, hn⟩ := balanced_run ((rows_refine e s₀).run hr)
  have := hb.permits
  omega

/-- Unless all workers have left, the run can make progress. -/
theorem may_progress (h₀ : Startable e s₀) (h : (e.live s₀).Reachable s) (hl : LeasesLive e s)
    (hleft : ¬ AllLeft e s) : (e.live s₀).MayProgress RunAct.progress s := by
  have hw := (runBooks_reachable h₀ h).working
  obtain ⟨w, hmem, hnot⟩ : ∃ w ∈ e.workers, ∀ k, s.pool.workers w = some k → k.life ≠ .left := by
    simpa [AllLeft] using hleft
  obtain ⟨k, hk, hm⟩ := hw.crew w hmem
  have hrun : k.life = .running := hm.life.resolve_right (hnot k hk)
  have owned : ∀ {a p}, pool.step s.pool a p → e.owns a = true → RunAct.progress (.pool a) = true →
      (e.live s₀).MayProgress RunAct.progress s := by
    intro a p hst ha hp
    refine ⟨.pool a, ⟨p, e.spawn s.proc a⟩, hp, ?_, hl⟩
    show e.step s (.pool a) = _
    rw [EngineRun.step, if_pos ha, show step s.pool a = some p from hst]
    rfl
  have hmay := mayReturn hk hrun
  cases hp : k.phase with
  | claiming =>
    obtain ⟨cid, p, hst⟩ := claim_possible hk hrun hp
    exact owned hst (List.contains_iff_mem.mpr hmem) rfl
  | writing cid chunk results =>
    rw [hp] at hmay
    obtain ⟨p, hst⟩ := hmay
    exact owned hst (List.contains_iff_mem.mpr hmem) rfl
  | completing cid chunk results ref =>
    rw [hp] at hmay
    obtain ⟨n, p, hst⟩ := hmay
    exact owned hst (List.contains_iff_mem.mpr hmem) rfl
  | processing cid chunk hb =>
    cases hb with
    | failed => exact absurd hp (hm.heartbeat cid chunk)
    | sleeping wake =>
      cases hg : gathered (s.proc.chunkTasks cid) with
      | some results =>
        refine ⟨.gathered w, ⟨s.pool.setPhase w k (.writing cid chunk results), s.proc⟩, rfl, ?_,
          hl⟩
        show e.step s (.gathered w) = _
        have hrunning : s.pool.running w = some k := running_iff.mpr ⟨hk, hrun⟩
        simp only [EngineRun.step, hrunning, Option.bind_some, hp, hg, Option.map_some,
          if_pos (List.contains_iff_mem.mpr hmem)]
      | none =>
        obtain ⟨τ, hτ, hr⟩ := gathered_none hg
        obtain ⟨i, v, hst⟩ := some_row_possible hw (permits_reachable h.of_restrict)
          (List.mem_filter.mp hτ).1 hr
        exact ⟨.row i 0, v, rfl, hst, hl⟩

/-- A fair schedule ends with all workers gone. -/
theorem workers_leave (h₀ : Startable e s₀) {state : Nat → RunState} {label : Nat → RunAct}
    (hs : (e.live s₀).Schedule state label)
    (hf : (e.live s₀).Fair RunAct.progress state label) : ∃ n, AllLeft e (state n) := by
  obtain ⟨n, hn⟩ := (run_ranked h₀).ends hs hf
  refine ⟨n, Classical.byContradiction fun hleft => hn ?_⟩
  exact may_progress h₀ (hs.reachable n) (hs.step n).2 hleft

end steps

end BatchSystem.Engine
