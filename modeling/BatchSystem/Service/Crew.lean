import BatchSystem.Service.System

/-!
# The workers of an execution

Workers are started by `BatchEngine.run` only, so every worker belongs to one
execution and has its job and the settings of its process (`crews_reachable`).
-/
namespace BatchSystem.Service

open BatchSystem.Core Domain Queue Engine Ingest

/-- `engine.run` has not been called. -/
def Pc.early : Pc → Bool
  | .created | .ingesting .. | .ingested | .starting => true
  | _ => false

structure Crews (s : SState) : Prop where
  early : ∀ e x, s.execs e = some x → x.pc.early = true → x.workers = []
  members : ∀ e x, s.execs e = some x → ∀ w ∈ x.workers, ∃ k, s.pool.workers w = some k ∧
    k.job = x.job ∧ k.settings = x.settings
  owner : ∀ w k, s.pool.workers w = some k → ∃ e x, s.execs e = some x ∧ w ∈ x.workers
  unique : ∀ e e' x x' w, s.execs e = some x → s.execs e' = some x' → w ∈ x.workers →
    w ∈ x'.workers → e = e'

theorem worker_stays {s v : PState} {l : Act} (hm : Move s l v) {w : WorkerId} {k : Worker}
    (hk : s.workers w = some k) : ∃ k', v.workers w = some k' ∧ k'.job = k.job ∧
      k'.settings = k.settings := by
  obtain ⟨k', hk'⟩ := worker_persists hm hk
  rcases worker_next hm hk' with ⟨hn, -⟩ | ⟨k₀, hk₀, hj, hs, -⟩
  · rw [hk] at hn; cases hn
  · obtain rfl := Option.some.inj (hk₀.symm.trans hk)
    exact ⟨k', hk', hj, hs⟩

section step
variable {text : Json → String} {s v : SState} {l : SAct}

theorem workers_pool (hr : (system text).Reachable s) (hst : (system text).step s l v)
    {w : WorkerId} {k : Worker} (h : s.pool.workers w = some k) :
    ∃ k', v.pool.workers w = some k' ∧ k'.job = k.job ∧ k'.settings = k.settings := by
  rcases pool_next hr hst with hp | ⟨a, -, hp⟩
  · rw [hp]; exact ⟨k, h, rfl, rfl⟩
  · exact worker_stays (move_of_step hp) h

/-- The workers that an engine has just started. -/
theorem started_workers {e : ExecId} {ws : List WorkerId} (hst : (system text).step s
    (.engineStart e ws) v) : ∃ x, s.execs e = some x ∧
      ∀ w ∈ ws, v.pool.workers w = some { job := x.job, settings := x.settings } := by
  cases change_of_step hst with
  | engineStart hx hp hlen hn hpool =>
    refine ⟨_, hx, fun w hw => ?_⟩
    cases move_of_step hpool with
    | start => exact if_pos hw

/-- The ids of new workers are new. -/
theorem started_fresh {e : ExecId} {ws : List WorkerId} (hst : (system text).step s
    (.engineStart e ws) v) : ∀ w ∈ ws, s.pool.workers w = none := by
  cases change_of_step hst with
  | engineStart hx hp hlen hn hpool =>
    cases move_of_step hpool with
    | start hfree => exact hfree

/-- A new worker comes from an engine that starts. -/
theorem worker_origin (hr : (system text).Reachable s) (hst : (system text).step s l v)
    {w : WorkerId} {k : Worker} (h : v.pool.workers w = some k) :
    (∃ k₀, s.pool.workers w = some k₀) ∨ ∃ e ws, l = .engineStart e ws ∧ w ∈ ws := by
  rcases pool_next hr hst with hp | ⟨a, ha, hp⟩
  · exact .inl ⟨k, hp ▸ h⟩
  rcases started_step (move_of_step hp) h with hold | ⟨ws, job, settings, rfl, hw⟩
  · exact .inl hold
  cases drives_of_poolAct hst ha with
  | engineStart => exact .inr ⟨_, _, rfl, hw⟩
  | worker hb => cases hb

/-- An execution comes to call the engine with no workers yet. -/
theorem early_next (hc : Change text s l v) {e : ExecId} {x' : Execution}
    (h : v.execs e = some x') (he : x'.pc.early = true) :
    x'.workers = [] ∨ ∃ x, s.execs e = some x ∧ x.pc.early = true ∧ x'.workers = x.workers := by
  cases execTurn_of_change hc h with
  | same hx => exact .inr ⟨x', hx, he, rfl⟩
  | submit | resume | runWorker => exact .inl rfl
  | setIngesting _ hx hp | flush hx hp | setTotal hx hp | setRunning hx hp =>
    exact .inr ⟨_, hx, by rw [hp]; rfl, rfl⟩
  | engineStart | gathered | setCompleted | handlerRaises | setFailed | crash => cases he
  | @gatherRaises x _ msg | @raise x msg =>
    have hn : (x.except msg).early = false := by unfold Execution.except; split <;> rfl
    rw [show (x.except msg).early = true from he] at hn
    cases hn

/-- No execution is forgotten. -/
theorem exec_persists (hc : Change text s l v) {e : ExecId} {x : Execution}
    (hx : s.execs e = some x) : ∃ x', v.execs e = some x' := by
  have hset : ∀ (u : SState) (d : ExecId) (y : Execution), u.execs = s.execs →
      ∃ x', (u.setExec d y).execs e = some x' := by
    intro u d y hu
    by_cases he : e = d
    · exact ⟨y, if_pos he⟩
    · exact ⟨x, (if_neg he).trans (by rw [hu, hx])⟩
  cases hc with
  | resume =>
    simp only
    split
    · exact ⟨_, rfl⟩
    · exact ⟨x, hx⟩
  | crash =>
    simp only [SState.stopExecs, hx]
    split
    · exact ⟨_, rfl⟩
    · exact ⟨x, rfl⟩
  | worker => exact ⟨x, hx⟩
  | submit | runWorker | setIngesting | flush | setTotal | setRunning | engineStart | gathered
  | setCompleted | gatherRaises | raise | handlerRaises | setFailed => exact hset _ _ _ rfl

/-- An execution keeps its job, its settings and its workers. -/
theorem crew_stays (hc : Change text s l v) (hearly : ∀ e x, s.execs e = some x →
    x.pc.early = true → x.workers = []) {e : ExecId} {x x' : Execution}
    (hx : s.execs e = some x) (hx' : v.execs e = some x') :
    x'.job = x.job ∧ x'.settings = x.settings ∧ x.workers ⊆ x'.workers := by
  cases exec_next hc hx' with
  | new hn => rw [hx] at hn; cases hn
  | started h₀ hl hp he =>
    obtain rfl := Option.some.inj (h₀.symm.trans hx)
    rw [he, hearly e _ hx (by rw [hp]; rfl)]
    exact ⟨rfl, rfl, List.nil_subset _⟩
  | gathered h₀ _ _ he | moved h₀ he =>
    obtain rfl := Option.some.inj (h₀.symm.trans hx)
    rw [he]
    exact ⟨rfl, rfl, List.Subset.refl _⟩

theorem crews_step (hr : (system text).Reachable s) (h : Crews s)
    (hst : (system text).step s l v) : Crews v := by
  have hc := change_of_step hst
  -- the worker of an execution was its worker before, or it is new
  have back : ∀ e x' w, v.execs e = some x' → w ∈ x'.workers →
      (∃ x, s.execs e = some x ∧ w ∈ x.workers ∧ x'.job = x.job ∧ x'.settings = x.settings) ∨
        l = .engineStart e x'.workers := by
    intro e x' w hx' hw
    cases exec_next hc hx' with
    | new _ hn => rw [hn] at hw; cases hw
    | started _ hl => exact .inr hl
    | gathered hx _ _ he | moved hx he =>
      rw [he] at hw
      exact .inl ⟨_, hx, hw, by rw [he], by rw [he]⟩
  refine ⟨fun e x' hx' he => ?_, fun e x' hx' w hw => ?_, fun w k' hk' => ?_, ?_⟩
  · rcases early_next hc hx' he with hn | ⟨x, hx, hearly, hws⟩
    · exact hn
    · rw [hws]; exact h.early e x hx hearly
  · rcases back e x' w hx' hw with ⟨x, hx, hmem, hj, hs⟩ | hl
    · obtain ⟨k, hk, hkj, hks⟩ := h.members e x hx w hmem
      obtain ⟨k', hk', hj', hs'⟩ := workers_pool hr hst hk
      exact ⟨k', hk', by rw [hj', hkj, hj], by rw [hs', hks, hs]⟩
    · subst hl
      obtain ⟨x, hx, hws⟩ := started_workers hst
      obtain ⟨hj, hs, -⟩ := crew_stays hc h.early hx hx'
      exact ⟨_, hws w hw, hj.symm, hs.symm⟩
  · rcases worker_origin hr hst hk' with ⟨k, hk⟩ | ⟨e, ws, rfl, hw⟩
    · obtain ⟨e, x, hx, hmem⟩ := h.owner w k hk
      obtain ⟨x', hx'⟩ := exec_persists hc hx
      exact ⟨e, x', hx', (crew_stays hc h.early hx hx').2.2 hmem⟩
    · cases hc with
      | engineStart hx => exact ⟨e, _, if_pos rfl, hw⟩
  · intro e e' x y w hx hy hw hw'
    rcases back e x w hx hw with ⟨x₀, hx₀, hmem, -⟩ | hl <;>
      rcases back e' y w hy hw' with ⟨y₀, hy₀, hmem', -⟩ | hl'
    · exact h.unique e e' x₀ y₀ w hx₀ hy₀ hmem hmem'
    · subst hl'
      obtain ⟨k, hk, -⟩ := h.members e x₀ hx₀ w hmem
      rw [started_fresh hst w hw'] at hk; cases hk
    · subst hl
      obtain ⟨k, hk, -⟩ := h.members e' y₀ hy₀ w hmem'
      rw [started_fresh hst w hw] at hk; cases hk
    · exact (SAct.engineStart.inj (hl.symm.trans hl')).1

end step

theorem crews_reachable {text : Json → String} {s : SState} (h : (system text).Reachable s) :
    Crews s := by
  refine h.induct (I := Crews) ?_ fun s l v hr hi hst => crews_step hr hi hst
  rintro _ ⟨now, rfl⟩
  refine ⟨fun _ _ h => ?_, fun _ _ h => ?_, fun _ _ h => ?_, fun _ _ _ _ _ h => ?_⟩ <;> cases h

/-- A worker has the job and the settings of its execution. -/
theorem worker_execution {text : Json → String} {s : SState} (h : (system text).Reachable s)
    {w : WorkerId} {k : Worker} (hk : s.pool.workers w = some k) :
    ∃ e x, s.execs e = some x ∧ w ∈ x.workers ∧ k.job = x.job ∧ k.settings = x.settings := by
  have hc := crews_reachable h
  obtain ⟨e, x, hx, hw⟩ := hc.owner w k hk
  obtain ⟨k', hk', hj, hs⟩ := hc.members e x hx w hw
  obtain rfl := Option.some.inj (hk'.symm.trans hk)
  exact ⟨e, x, hx, hw, hj, hs⟩

end BatchSystem.Service
