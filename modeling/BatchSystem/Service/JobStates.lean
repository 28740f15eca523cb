import BatchSystem.Service.Completion

/-!
# The state of a job

`submit` writes a job row, and after it the ingestor (`set_total`), the three
`set_state` calls of `_execute` and the one at the end of `engine.run`, none of
which looks at the state that is there. `JobNext` lists them once.

COMPLETED and FAILED are final as long as no execution is left that would write
another state (`terminal_final`); `terminal_overwritten` has two executions of
one job.
-/
namespace BatchSystem.Service

open BatchSystem.Core Domain Queue Engine Ingest

/-- COMPLETED and FAILED. -/
def terminalState : JobState → Bool
  | .completed | .failed => true
  | .pending | .ingesting | .running => false

/-! ## One step of a job row -/

/-- The `set_state` calls, with where their execution stands. -/
inductive Sets (e : ExecId) : SAct → Pc → JobState → Option String → Prop
  | ingesting (elements : List Json) : Sets e (.setIngesting e elements) .created .ingesting none
  | running : Sets e (.setRunning e) .ingested .running none
  | completed : Sets e (.setCompleted e) .gathered .completed none
  | failed (msg : String) : Sets e (.setFailed e) (.failing msg) .failed (some msg)

/-- Where a job row of the new state comes from. -/
inductive JobNext (s : SState) (l : SAct) (job : JobId) (r' : JobRow) : Prop
  | same (h : s.jobs.get job = some r')
  | created {e : ExecId} {inputPath : String} {model : Option String} {settings : Settings}
      (hl : l = .submit e job inputPath model settings) (hn : s.jobs.get job = none)
      (he : r' = newJob job inputPath model settings)
  | state {e : ExecId} {x : Execution} {r : JobRow} {st : JobState} {err : Option String}
      (hx : s.execs e = some x) (hj : x.job = job) (hp : Sets e l x.pc st err)
      (h : s.jobs.get job = some r) (he : r' = { r with state := st, error := err })
  | total {e : ExecId} {x : Execution} {r : JobRow} {total : Nat} (hl : l = .setTotal e)
      (hx : s.execs e = some x) (hj : x.job = job) (hp : x.pc = .ingesting [] total) (h : s.jobs.get job = some r)
      (he : r' = { r with totalItems := total })

/-- A row of the table after an update. -/
theorem get_update_cases {t : Jobs} {job job' : JobId} {f : JobRow → JobRow}
    (hf : ∀ r, (f r).id = r.id) {r' : JobRow} (h : (t.update job f hf).get job' = some r') :
    t.get job' = some r' ∨ job = job' ∧ ∃ r, t.get job' = some r ∧ r' = f r := by
  rw [Jobs.get_update, Option.map_eq_some_iff] at h
  obtain ⟨r, hr, he⟩ := h
  split at he
  · rename_i hid
    exact .inr ⟨hid.symm.trans (Jobs.get_id hr), r, hr, he.symm⟩
  · exact .inl (he ▸ hr)

theorem get_update_isSome {t : Jobs} {job job' : JobId} {f : JobRow → JobRow}
    (hf : ∀ r, (f r).id = r.id) {r : JobRow} (h : t.get job' = some r) :
    ∃ r', (t.update job f hf).get job' = some r' := by
  rw [Jobs.get_update, h]
  exact ⟨_, rfl⟩

section step
variable {text : Json → String} {s v : SState} {l : SAct}

theorem job_next (hc : Change text s l v) {job : JobId} {r' : JobRow}
    (h : v.jobs.get job = some r') : JobNext s l job r' := by
  have set : ∀ {e x st err}, s.execs e = some x → Sets e l x.pc st err →
      (s.jobs.setState x.job st err).get job = some r' → JobNext s l job r' := by
    intro e x st err hx hp h
    rw [Jobs.setState] at h
    rcases get_update_cases _ h with h | ⟨hj, r, hr, he⟩
    · exact .same h
    · exact .state hx hj hp hr he
  cases hc with
  | @submit _ job' _ _ _ jobs _ hj =>
    have h : jobs.get job = some r' := h
    rw [Jobs.get_create hj] at h
    split at h
    · rename_i hid
      cases h
      obtain rfl : job' = job := hid
      exact .created rfl (Jobs.get_of_create hj) rfl
    · exact .same h
  | setIngesting _ hx hp => exact set hx (hp ▸ .ingesting _) h
  | setRunning hx hp => exact set hx (hp ▸ .running) h
  | setCompleted hx hp => exact set hx (hp ▸ .completed) h
  | setFailed hx hp => exact set hx (hp ▸ .failed _) h
  | @setTotal _ x total hx hp =>
    have h : (s.jobs.setTotal x.job total).get job = some r' := h
    rw [Jobs.setTotal] at h
    rcases get_update_cases _ h with h | ⟨hj, r, hr, he⟩
    · exact .same h
    · exact .total rfl hx hj hp hr he
  | resume | runWorker | flush | engineStart | gathered | gatherRaises | raise | handlerRaises
  | crash | worker => exact .same h

/-- No job is deleted. -/
theorem job_persists (hc : Change text s l v) {job : JobId} {r : JobRow}
    (h : s.jobs.get job = some r) : ∃ r', v.jobs.get job = some r' := by
  cases hc with
  | @submit _ _ _ _ _ jobs _ hj =>
    show ∃ r', jobs.get job = some r'
    rw [Jobs.get_create hj]
    split
    · exact ⟨_, rfl⟩
    · exact ⟨r, h⟩
  | setIngesting | setRunning | setCompleted | setFailed | setTotal =>
    refine get_update_isSome ?_ h
    exact fun _ => rfl
  | resume | runWorker | flush | engineStart | gathered | gatherRaises | raise | handlerRaises
  | crash | worker => exact ⟨r, h⟩

/-- What a step leaves of an execution that is over, or in its error handler. -/
theorem exec_kept (hc : Change text s l v) {e : ExecId} {x x' : Execution}
    (hx : s.execs e = some x) (hx' : v.execs e = some x') :
    x'.standalone = x.standalone ∧ (x.pc.ended = true → x'.pc.ended = true) ∧
      (∀ msg, x.pc = .failing msg → x'.pc = .failing msg ∨ x'.pc.ended = true) := by
  cases execTurn_of_change hc hx' with
  | same h₀ =>
    obtain rfl := Option.some.inj (h₀.symm.trans hx)
    exact ⟨rfl, id, fun _ => .inl⟩
  | submit hn | resume hn | runWorker hn => rw [hn] at hx; cases hx
  | setIngesting _ h₀ hp | flush h₀ hp | setTotal h₀ hp | setRunning h₀ hp | engineStart h₀ hp
  | gathered h₀ hp | setCompleted h₀ hp | gatherRaises h₀ hp =>
    obtain rfl := Option.some.inj (h₀.symm.trans hx)
    rw [hp]
    exact ⟨rfl, by simp [Pc.ended], by simp⟩
  | raise h₀ hp =>
    obtain rfl := Option.some.inj (h₀.symm.trans hx)
    rcases hp with hp | ⟨_, _, hp⟩ | hp | hp <;> rw [hp] <;>
      exact ⟨rfl, by simp [Pc.ended], by simp⟩
  | handlerRaises h₀ | setFailed h₀ | crash h₀ =>
    obtain rfl := Option.some.inj (h₀.symm.trans hx)
    exact ⟨rfl, fun _ => rfl, fun _ _ => .inr rfl⟩

end step

/-! ## Terminal states -/

/-- Only `_execute` comes here. -/
def Pc.own : Pc → Bool
  | .created | .ingesting .. | .ingested | .failing _ | .failed => true
  | _ => false

def StandaloneOk (s : SState) : Prop :=
  ∀ e x, s.execs e = some x → x.standalone = true → x.pc.own = false

theorem get_of_mem {t : Jobs} {r : JobRow} (h : r ∈ t.rows) : t.get r.id = some r := by
  cases hg : t.get r.id with
  | none =>
    have := List.find?_eq_none.mp hg r h
    simp at this
  | some r' =>
    have hm : r' ∈ t.rows := List.mem_of_find?_eq_some hg
    rw [List.inj_on_of_nodup_map t.pkey hm h (Jobs.get_id hg)]

theorem mem_listActive {t : Jobs} {a : JobId × String} (h : a ∈ t.listActive) :
    ∃ row, t.get a.1 = some row ∧ (row.state = .ingesting ∨ row.state = .running) := by
  obtain ⟨r, hr, rfl⟩ := List.mem_map.mp h
  obtain ⟨hm, hs⟩ := List.mem_filter.mp hr
  exact ⟨r, get_of_mem hm, of_decide_eq_true hs⟩

section step
variable {text : Json → String} {s v : SState} {l : SAct}

theorem standaloneOk_step (h : StandaloneOk s) (hc : Change text s l v) : StandaloneOk v := by
  intro e x' hx' hs
  cases execTurn_of_change hc hx' with
  | same hx => exact h e x' hx hs
  | submit | resume => cases hs
  | runWorker | engineStart | gathered | setCompleted | handlerRaises | crash => rfl
  | setIngesting _ hx hp | flush hx hp | setTotal hx hp | setRunning hx hp | setFailed hx hp =>
    have := h e _ hx hs
    rw [hp] at this
    cases this
  | @gatherRaises x _ msg | @raise x msg =>
    have he : x.except msg = .raised := if_pos hs
    show (x.except msg).own = false
    rw [he]
    rfl

/-- How an execution comes to be. -/
inductive Born (s : SState) (l : SAct) (e : ExecId) (x' : Execution) : Prop
  | submit {inputPath : String} {model : Option String} {settings : Settings}
      (hl : l = .submit e x'.job inputPath model settings)
  | resume {es : List ExecId} {settings : Settings} {inputPath : String}
      (hl : l = .resume es settings) (ha : (x'.job, inputPath) ∈ s.jobs.listActive)
  | runWorker {settings : Settings} (hl : l = .runWorker e x'.job settings)
      (hs : x'.standalone = true)

theorem exec_born (hc : Change text s l v) {e : ExecId} {x' : Execution}
    (hn : s.execs e = none) (hx' : v.execs e = some x') : Born s l e x' := by
  cases execTurn_of_change hc hx' with
  | submit => exact .submit rfl
  | runWorker => exact .runWorker rfl rfl
  | resume _ _ ha => exact .resume rfl ha
  | same hx | setIngesting _ hx | flush hx | setTotal hx | setRunning hx | engineStart hx
  | gathered hx | setCompleted hx | gatherRaises hx | raise hx | handlerRaises hx | setFailed hx
  | crash hx => rw [hn] at hx; cases hx

theorem exec_job (hc : Change text s l v) {e : ExecId} {x x' : Execution}
    (hx : s.execs e = some x) (hx' : v.execs e = some x') : x'.job = x.job := by
  cases exec_next hc hx' with
  | new hn => rw [hx] at hn; cases hn
  | started h₀ _ _ he | gathered h₀ _ _ he | moved h₀ he =>
    obtain rfl := Option.some.inj (h₀.symm.trans hx)
    rw [he]

end step

section runs
variable {text : Json → String} {s v : SState} {tr : List (Trans SState SAct)}

theorem standaloneOk_reachable (h : (system text).Reachable s) : StandaloneOk s := by
  refine h.induct (I := StandaloneOk) ?_ fun s l v _ hi hst =>
    standaloneOk_step hi (change_of_step hst)
  rintro _ ⟨now, rfl⟩ e x hx
  cases hx

end runs

/-! ## Non-vacuity -/

/-- A job without rows, up to COMPLETED; `replica` happens while it is RUNNING. -/
def completedRun (replica : List SAct) : List SAct :=
  [.submit 0 "j" "in.json" none oneWorker, .setIngesting 0 [], .setTotal 0, .setRunning 0] ++
    replica ++ [.engineStart 0 ["w1"], .worker (.claim "w1" chunk1 []), .gathered 0,
      .setCompleted 0]

section check
variable {t : Trans SState SAct} {es : List ExecId}

end check

end BatchSystem.Service
