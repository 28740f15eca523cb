import BatchSystem.Service.JobStates

/-!
# Restarts

`resume_active` takes up the INGESTING and the RUNNING jobs, and a job is
PENDING from `submit` until its `_execute` has set INGESTING. So a restart
schedules every job that is not over, as long as no execution stops before that
(`resumed`); `pending_forgotten` is a crash right after `submit`.
-/
namespace BatchSystem.Service

open BatchSystem.Core Domain Queue Engine Ingest

/-- The job is PENDING. -/
def IsPending (s : SState) (job : JobId) : Prop :=
  ∃ row, s.jobs.get job = some row ∧ row.state = .pending

/-- No `_execute` of a PENDING job stops: neither with its process, nor in its
error handler. -/
def PastPending (s : SState) : SAct → Prop
  | .crash es => ∀ e ∈ es, ∀ x, s.execs e = some x → x.pc.ended = false → x.standalone = false →
    ¬ IsPending s x.job
  | .raise e _ => ∀ x msg, s.execs e = some x → x.pc = .failing msg → ¬ IsPending s x.job
  | _ => True

/-- Before INGESTING, or in the handler of an error that came before it. -/
def Pc.first (pc : Pc) : Prop := pc = .created ∨ ∃ msg, pc = .failing msg

/-- A PENDING job still has an execution that has set no state. -/
def PendingHeld (s : SState) : Prop :=
  ∀ job, IsPending s job → ∃ e x, s.execs e = some x ∧ x.job = job ∧ x.standalone = false ∧
    x.pc.first

section step
variable {text : Json → String} {s v : SState} {l : SAct}

/-- What a `set_state` leaves in the row. -/
theorem sets_row (hc : Change text s l v) {e : ExecId} {x : Execution} {st : JobState}
    {err : Option String} (hx : s.execs e = some x) (hp : Sets e l x.pc st err) {r' : JobRow}
    (hr : v.jobs.get x.job = some r') : r'.state = st := by
  have set : ∀ {y : Execution} {st err}, s.execs e = some y →
      (s.jobs.setState y.job st err).get x.job = some r' → r'.state = st := by
    intro y st err hy h
    obtain rfl := Option.some.inj (hy.symm.trans hx)
    rw [Jobs.setState, Jobs.get_update, Option.map_eq_some_iff] at h
    obtain ⟨r, hr, he⟩ := h
    rw [if_pos (Jobs.get_id hr)] at he
    rw [← he]
  generalize x.pc = pc at hp
  cases hp with
  | ingesting => cases hc with | setIngesting _ hy => exact set hy hr
  | running => cases hc with | setRunning hy => exact set hy hr
  | completed => cases hc with | setCompleted hy => exact set hy hr
  | failed => cases hc with | setFailed hy _ => exact set hy hr

/-- How an execution leaves its first steps. -/
theorem first_next (hc : Change text s l v) {e : ExecId} {x x' : Execution}
    (hx : s.execs e = some x) (hx' : v.execs e = some x') (hs : x.standalone = false)
    (hf : x.pc.first) :
    x'.pc.first ∨ (∃ st err, Sets e l x.pc st err) ∨ (∃ es, l = .crash es ∧ e ∈ es) ∨
      ∃ msg msg', l = .raise e msg ∧ x.pc = .failing msg' := by
  cases execTurn_of_change hc hx' with
  | same h₀ =>
    obtain rfl := Option.some.inj (h₀.symm.trans hx)
    exact .inl hf
  | submit hn | resume hn | runWorker hn => rw [hn] at hx; cases hx
  | setIngesting _ h₀ hp =>
    obtain rfl := Option.some.inj (h₀.symm.trans hx)
    rw [hp]
    exact .inr (.inl ⟨_, _, .ingesting _⟩)
  | setFailed h₀ hp =>
    obtain rfl := Option.some.inj (h₀.symm.trans hx)
    rw [hp]
    exact .inr (.inl ⟨_, _, .failed _⟩)
  | flush h₀ hp | setTotal h₀ hp | setRunning h₀ hp | engineStart h₀ hp | gathered h₀ hp
  | setCompleted h₀ hp | gatherRaises h₀ hp =>
    obtain rfl := Option.some.inj (h₀.symm.trans hx)
    rw [hp] at hf
    rcases hf with hf | ⟨_, hf⟩ <;> cases hf
  | @raise _ msg h₀ =>
    obtain rfl := Option.some.inj (h₀.symm.trans hx)
    exact .inl (.inr ⟨msg, if_neg (by simp [hs])⟩)
  | handlerRaises h₀ hp =>
    obtain rfl := Option.some.inj (h₀.symm.trans hx)
    exact .inr (.inr (.inr ⟨_, _, rfl, hp⟩))
  | crash _ he => exact .inr (.inr (.inl ⟨_, rfl, he⟩))

theorem pending_step (h : PendingHeld s) (hl : PastPending s l) (hc : Change text s l v) :
    PendingHeld v := by
  rintro job ⟨row', hrow', hst'⟩
  -- a PENDING row was PENDING before, or it is new
  have hold : IsPending s job ∨ ∃ e path model settings,
      l = .submit e job path model settings := by
    cases job_next hc hrow' with
    | same hrow => exact .inl ⟨row', hrow, hst'⟩
    | created hl => exact .inr ⟨_, _, _, _, hl⟩
    | total _ _ _ _ hrow he => exact .inl ⟨_, hrow, by rw [← hst', he]⟩
    | @state _ x _ st _ _ _ hp _ he =>
      rw [he] at hst'
      obtain rfl : st = .pending := hst'
      generalize x.pc = pc at hp
      cases hp
  rcases hold with hpend | ⟨e, path, model, settings, rfl⟩
  · obtain ⟨e, x, hx, rfl, hs, hf⟩ := h job hpend
    obtain ⟨x', hx'⟩ := exec_persists hc hx
    refine ⟨e, x', hx', exec_job hc hx hx', (exec_kept hc hx hx').1.trans hs, ?_⟩
    rcases first_next hc hx hx' hs hf with hf | ⟨st, err, hp⟩ | ⟨es, rfl, he⟩ |
      ⟨msg, msg', rfl, hp⟩
    · exact hf
    · obtain rfl : st = .pending := (sets_row hc hx hp hrow').symm.trans hst'
      generalize x.pc = pc at hp
      cases hp
    · refine absurd hpend (hl e he x hx ?_ hs)
      rcases hf with hf | ⟨_, hf⟩ <;> rw [hf] <;> rfl
    · exact absurd hpend (hl x msg' hx hp)
  · cases hc with
    | submit => exact ⟨e, _, if_pos rfl, rfl, rfl, .inl rfl⟩

theorem zip_lookup {es : List ExecId} {as : List (JobId × String)} (hlen : es.length = as.length)
    (hn : es.Nodup) {a : JobId × String} (ha : a ∈ as) :
    ∃ e ∈ es, (es.zip as).lookup e = some a := by
  induction es generalizing as with
  | nil => cases as with
    | nil => cases ha
    | cons => cases hlen
  | cons d es ih => cases as with
    | nil => cases ha
    | cons b as =>
      obtain ⟨hd, hn⟩ := List.nodup_cons.mp hn
      rcases List.mem_cons.mp ha with rfl | ha
      · exact ⟨d, List.mem_cons_self, by simp⟩
      · obtain ⟨e, he, hl⟩ := ih (Nat.succ.inj hlen) hn ha
        have hne : (e == d) = false := by
          rw [beq_eq_false_iff_ne]
          rintro rfl
          exact hd he
        refine ⟨e, List.mem_cons_of_mem _ he, ?_⟩
        rw [List.zip_cons_cons, List.lookup_cons, hne]
        exact hl

/-- A restart schedules the INGESTING and the RUNNING jobs. -/
theorem resume_schedules {es : List ExecId} {settings : Settings}
    (hst : (system text).step s (.resume es settings) v) {job : JobId} {row : JobRow}
    (hrow : s.jobs.get job = some row) (ha : row.state = .ingesting ∨ row.state = .running) :
    ∃ e ∈ es, v.execs e = some (newExecution job settings) := by
  cases change_of_step hst with
  | resume hlen hn =>
    have hmem : (row.id, row.inputPath) ∈ s.jobs.listActive := by
      refine List.mem_map.mpr ⟨row, List.mem_filter.mpr ⟨?_, decide_eq_true ha⟩, rfl⟩
      exact List.mem_of_find?_eq_some hrow
    obtain ⟨e, he, hl⟩ := zip_lookup hlen hn hmem
    refine ⟨e, he, ?_⟩
    simp only [hl]
    rw [Jobs.get_id hrow]

end step

section runs
variable {text : Json → String} {s v : SState}

theorem pendingHeld_reachable (h : ((system text).restrict PastPending).Reachable s) :
    PendingHeld s := by
  refine h.induct (I := PendingHeld) ?_ ?_
  · rintro _ ⟨now, rfl⟩ job ⟨row, hrow, -⟩
    cases hrow
  · intro s l v _ hi hst
    exact pending_step hi hst.2 (change_of_step hst.1)

/-- **A restart schedules every job that is not over** and has no `_execute`
left, in every run in which none stops while its job is PENDING. -/
theorem resumed (h : ((system text).restrict PastPending).Reachable s) {es : List ExecId}
    {settings : Settings} (hst : (system text).step s (.resume es settings) v) {job : JobId}
    {row : JobRow} (hrow : s.jobs.get job = some row) (hn : terminalState row.state = false)
    (hover : ∀ e x, s.execs e = some x → x.job = job → x.standalone = false →
      x.pc.ended = true) : ∃ e ∈ es, v.execs e = some (newExecution job settings) := by
  refine resume_schedules hst hrow ?_
  cases hs : row.state with
  | ingesting => exact .inl rfl
  | running => exact .inr rfl
  | completed | failed => rw [hs] at hn; cases hn
  | pending =>
    obtain ⟨e, x, hx, hj, hsa, hf⟩ := pendingHeld_reachable h job ⟨row, hrow, hs⟩
    have hend := hover e x hx hj hsa
    rcases hf with hf | ⟨_, hf⟩ <;> rw [hf] at hend <;> cases hend

end runs

/-! ## Non-vacuity -/

def pastPendingIn (t : Trans SState SAct) : Bool :=
  match t.lbl with
  | .crash es => es.all fun e => (t.pre.execs e).all fun x => x.pc.ended || x.standalone ||
    (t.pre.jobs.get x.job).all fun row => row.state ≠ .pending
  | .raise _ _ => false
  | _ => true

theorem pastPending_of_check {t : Trans SState SAct} (h : pastPendingIn t = true) : PastPending t.pre t.lbl := by
  unfold PastPending
  unfold pastPendingIn at h
  split
  · rename_i es' hl
    rw [hl] at h
    rintro e he x hx hend hs ⟨row, hrow, hst⟩
    have := List.all_eq_true.mp h e he
    simp [hx, hend, hs, hrow, hst] at this
  · rename_i e msg hl
    rw [hl] at h
    cases h
  · trivial

/-- A crash right after `submit`: the next start finds nothing to resume. -/
theorem pending_forgotten : ¬ ∀ s v es settings, (system noText).Reachable s →
    (system noText).step s (.resume es settings) v → ∀ job row, s.jobs.get job = some row →
      terminalState row.state = false →
        (∀ e x, s.execs e = some x → x.job = job → x.standalone = false → x.pc.ended = true) →
          ∃ e ∈ es, v.execs e = some (newExecution job settings) := by
  intro h
  obtain ⟨⟨tr, s⟩, he, hexec, v, hv, row, hrow, hs⟩ : ∃ p,
      LTS.exec (sysStep noText) (.init 0) [.submit 0 "j" "in.json" none oneWorker, .crash [0]] =
        some p ∧ (∀ e ∈ p.1.flatMap fun t => createdBy t.lbl,
          (p.2.execs e).all (fun x => x.pc.ended) = true) ∧
        ∃ v, sysStep noText p.2 (.resume [] oneWorker) = some v ∧
          ∃ row, p.2.jobs.get "j" = some row ∧ terminalState row.state = false :=
    ⟨_, rfl, by decide +kernel, _, rfl, _, rfl, rfl⟩
  have hr : (system noText).Run tr s := ⟨_, ⟨0, rfl⟩, LTS.path_of_exec he⟩
  obtain ⟨e, hmem, -⟩ := h s v [] oneWorker hr.reachable hv "j" row hrow hs fun e x hx _ _ => by
    have := hexec e (created_run hr e x hx)
    rwa [hx, Option.all_some] at this
  cases hmem

/-- A crash after INGESTING: the next start resumes the job. -/
theorem resumed_ingesting : ∃ s v row, ((system noText).restrict PastPending).Reachable s ∧
    (system noText).step s (.resume [1] oneWorker) v ∧ s.jobs.get "j" = some row ∧
      row.state = .ingesting ∧ ∃ e ∈ [1], v.execs e = some (newExecution "j" oneWorker) := by
  obtain ⟨⟨tr, s⟩, he, hq, hexec, v, hv, row, hrow, hs⟩ : ∃ p,
      LTS.exec (sysStep noText) (.init 0) [.submit 0 "j" "in.json" none oneWorker,
        .setIngesting 0 fileA, .crash [0]] = some p ∧ (∀ t ∈ p.1, pastPendingIn t = true) ∧
        (∀ e ∈ p.1.flatMap fun t => createdBy t.lbl,
          (p.2.execs e).all (fun x => x.pc.ended) = true) ∧
        ∃ v, sysStep noText p.2 (.resume [1] oneWorker) = some v ∧
          ∃ row, p.2.jobs.get "j" = some row ∧ row.state = .ingesting :=
    ⟨_, rfl, by decide +kernel, by decide +kernel, _, rfl, _, rfl, rfl⟩
  have hr : ((system noText).restrict PastPending).Run tr s :=
    ⟨_, ⟨0, rfl⟩, (LTS.path_of_exec he).restrict fun t ht => pastPending_of_check (hq t ht)⟩
  refine ⟨s, v, row, hr.reachable, hv, hrow, hs,
    resumed hr.reachable hv hrow (by rw [hs]; rfl) fun e x hx _ _ => ?_⟩
  have := hexec e (created_run hr.of_restrict e x hx)
  rwa [hx, Option.all_some] at this

end BatchSystem.Service
