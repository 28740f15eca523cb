import BatchSystem.Engine.Sequential

/-!
# Clients with a state

The coroutines of a process share one `InferenceClient`, and what it answers may
depend on all that it was asked before. A call takes effect at its end, in one
piece, and one that is interrupted does not.

* `client_process`: the coroutines of a run are those of a process with this
  client (`Client.process`), whose every interleaving and interruption is
  possible.
* `stateless_run`: a run in which no lease runs out asks for each attempt at each
  row at most once. So the run is one with a client that has no state, and all
  that holds of those (`runBooks_reachable`, `final_once`) holds of it.
-/
namespace BatchSystem.Engine

open BatchSystem.Core Domain Queue Storage PState

variable {σ : Type}

/-- What the client remembers, and how a call ends.
mirrors app/interfaces/inference_client.py:9-18 -/
structure Client (σ : Type) where
  init : σ
  complete : σ → InferenceRequest → Outcome × σ

namespace Client
variable (c : Client σ)

/-- The call at which the coroutine stands. mirrors app/engine/worker.py:115-121 -/
def call (x : σ) (τ : RowTask) : Outcome × σ := c.complete x (requestFor τ.settings τ.item)

/-- An answer is that of the client. -/
def allows (x : σ) (τ : RowTask) : RowAct → Bool
  | .answer o => o = (c.call x τ).1
  | .enter | .wake | .raise => true

def after (x : σ) (τ : RowTask) : RowAct → σ
  | .answer _ => (c.call x τ).2
  | .enter | .wake | .raise => x

def step (s : Proc × σ) : ProcAct → Option (Proc × σ)
  | .gather chunkId settings chunk => some (s.1.gather chunkId settings chunk, s.2)
  | .row i act latencyMs =>
    s.1.tasks[i]?.bind fun τ =>
      if c.allows s.2 τ act then
        (s.1.step (.row i act latencyMs)).map fun q => (q, c.after s.2 τ act)
      else none

/-- A process with a new limiter and a new client. -/
def process (maxConcurrency inflight : Int) : LTS (Proc × σ) ProcAct :=
  LTS.ofFn (fun s => (Engine.process maxConcurrency inflight).init s.1 ∧ s.2 = c.init) c.step

end Client

namespace EngineRun
variable (e : EngineRun)

/-- The run with answers that depend on the row and the attempt only. -/
def withAnswers (answers : Nat → Nat → Outcome) : EngineRun := { e with client := answers }

/-- A call that ends changes the client. -/
def stepWith (c : Client σ) (s : RunState × σ) : RunAct → Option (RunState × σ)
  | .row i latencyMs =>
    s.1.proc.tasks[i]?.bind fun τ =>
      ((e.withAnswers fun _ _ => (c.call s.2 τ).1).step s.1 (.row i latencyMs)).map fun v =>
        (v, if τ.stage.inCall then (c.call s.2 τ).2 else s.2)
  | l => (e.step s.1 l).map fun v => (v, s.2)

/-- The run, begun in `s₀` by a process with a new limiter and a new client. -/
def systemWith (c : Client σ) (s₀ : PState) : LTS (RunState × σ) RunAct :=
  LTS.ofFn (fun s => (e.system s₀).init s.1 ∧ s.2 = c.init) (e.stepWith c)

/-- The runs in which every lease holds while its worker lives. -/
def liveWith (c : Client σ) (s₀ : PState) : LTS (RunState × σ) RunAct :=
  (e.systemWith c s₀).restrict fun s _ => LeasesLive e s.1

end EngineRun

/-! ## The answers that a run got -/

/-- The attempts that were answered. -/
def Stage.answered : Stage → Nat
  | .waiting | .raised | .cancelled => 0
  | .calling st => st.attempt
  | .sleeping st | .returned _ st _ => st.attempt + 1

theorem nextAttempt_answered (settings : Settings) (item : ClaimedItem) (latencyMs : Int)
    (st : RowState) :
    st.attempt + 1 ≤ (nextAttempt settings item latencyMs (st.attempt + 1) st).answered := by
  unfold nextAttempt
  split <;> exact Nat.le_refl _

/-- No answer is taken back, and one that comes is counted. -/
theorem answered_step {τ : RowTask} {answers : Nat → Outcome} {latencyMs : Int} {act : RowAct}
    {v : Stage} {es : List Effect} (hn : τ.next answers = some act)
    (hs : τ.step latencyMs act = some (v, es)) :
    τ.stage.answered + τ.stage.inCall.toNat ≤ v.answered := by
  cases hst : τ.stage with
  | waiting => exact Nat.zero_le _
  | calling st =>
    simp only [RowTask.next, hst, Option.some.injEq] at hn
    subst hn
    simp only [RowTask.step, hst, Option.some.injEq, Prod.mk.injEq] at hs
    obtain ⟨rfl, -⟩ := hs
    show st.attempt + 1 ≤ _
    cases answers st.attempt with
    | success | permanent | unexpected => exact Nat.le_refl _
    | retryable msg =>
      simp only [Engine.answered]
      split
      · exact Nat.le_refl _
      · exact nextAttempt_answered _ _ _ { st with lastError := some msg }
  | sleeping st =>
    simp only [RowTask.next, hst, Option.some.injEq] at hn
    subst hn
    simp only [RowTask.step, hst, Option.some.injEq, Prod.mk.injEq] at hs
    obtain ⟨rfl, -⟩ := hs
    exact nextAttempt_answered _ _ _ st
  | returned | raised | cancelled =>
    simp only [RowTask.next, hst] at hn
    cases hn

/-- Attempt `n` at row `id` was answered. -/
def Answered (s : RunState) (id n : Nat) : Prop :=
  ∃ τ ∈ s.proc.tasks, τ.item.id = id ∧ n < τ.stage.answered

section moves
variable {e : EngineRun} {c : Client σ} {s₀ : PState} {s v : RunState × σ} {l : RunAct}

/-- A step moves one coroutine, with the client's answer, or leaves the client
alone. -/
inductive WithMove (e : EngineRun) (c : Client σ) (s v : RunState × σ) : RunAct → Prop
  | row {i : Nat} {latencyMs : Int} {τ : RowTask} (hτ : s.1.proc.tasks[i]? = some τ)
      (hm : (e.withAnswers fun _ _ => (c.call s.2 τ).1).step s.1 (.row i latencyMs) = some v.1)
      (hc : v.2 = if τ.stage.inCall then (c.call s.2 τ).2 else s.2) :
      WithMove e c s v (.row i latencyMs)
  | other {l : RunAct} (hl : ∀ i latencyMs, l ≠ .row i latencyMs) (hm : e.step s.1 l = some v.1)
      (hc : v.2 = s.2) : WithMove e c s v l

theorem withMove_of_step (h : e.stepWith c s l = some v) : WithMove e c s v l := by
  cases l with
  | row i latencyMs =>
    simp only [EngineRun.stepWith, Option.bind_eq_some_iff, Option.map_eq_some_iff] at h
    obtain ⟨τ, hτ, u, hu, rfl⟩ := h
    exact .row hτ hu rfl
  | pool | gathered =>
    simp only [EngineRun.stepWith, Option.map_eq_some_iff] at h
    obtain ⟨u, hu, rfl⟩ := h
    exact .other (by simp) hu rfl

/-- Only a step of a coroutine asks the client. -/
theorem step_withAnswers (hl : ∀ i latencyMs, l ≠ .row i latencyMs)
    (answers : Nat → Nat → Outcome) (u : RunState) : (e.withAnswers answers).step u l = e.step u l := by
  cases l with
  | row i latencyMs => exact absurd rfl (hl i latencyMs)
  | pool | gathered => rfl

/-- What the step of coroutine `i` asks the client. -/
theorem row_next {i : Nat} {latencyMs : Int} {τ : RowTask} {u w : RunState}
    (hτ : u.proc.tasks[i]? = some τ) (h : e.step u (.row i latencyMs) = some w) :
    ∃ act stage es, τ.next (e.client τ.item.id) = some act ∧
      τ.step latencyMs act = some (stage, es) ∧
        w.proc.tasks = u.proc.tasks.set i { τ with stage } := by
  cases runMove_of_step h with
  | row hτ' hn hs hq =>
    obtain rfl := Option.some.inj (hτ'.symm.trans hτ)
    exact ⟨_, _, _, hn, hs, rfl⟩

/-- Two clients that give one answer to the call of a coroutine. -/
theorem row_congr (answers answers' : Nat → Nat → Outcome) {i : Nat} {latencyMs : Int}
    {τ : RowTask} {u : RunState} (hτ : u.proc.tasks[i]? = some τ)
    (h : ∀ st, τ.stage = .calling st → answers τ.item.id st.attempt = answers' τ.item.id st.attempt) :
    (e.withAnswers answers).step u (.row i latencyMs) =
      (e.withAnswers answers').step u (.row i latencyMs) := by
  have hn : τ.next (answers τ.item.id) = τ.next (answers' τ.item.id) := by
    unfold RowTask.next
    cases hst : τ.stage with
    | calling st => simp only [h st hst]
    | _ => rfl
  simp only [EngineRun.step, EngineRun.withAnswers, hτ, Option.bind_some, hn]

theorem answered_mono {u w : RunState} (h : e.step u l = some w) {id n : Nat}
    (ha : Answered u id n) : Answered w id n := by
  obtain ⟨τ, hτ, hid, hn⟩ := ha
  cases hm : runMove_of_step h with
  | pool => exact ⟨τ, spawn_subset _ _ hτ, hid, hn⟩
  | gathered => exact ⟨τ, hτ, hid, hn⟩
  | @row i lat τ₁ act v es q hτ₁ hnx hs hq =>
    obtain ⟨j, hj⟩ := List.mem_iff_getElem?.mp hτ
    by_cases hij : i = j
    · subst hij
      obtain rfl := Option.some.inj (hτ₁.symm.trans hj)
      have hi := (List.getElem?_eq_some_iff.mp hj).1
      have := answered_step hnx hs
      refine ⟨{ τ₁ with stage := v }, List.mem_iff_getElem?.mpr ⟨i, ?_⟩, hid, by simp; omega⟩
      exact List.getElem?_set_self hi
    · refine ⟨τ, List.mem_iff_getElem?.mpr ⟨j, ?_⟩, hid, hn⟩
      show (u.proc.tasks.set i _)[j]? = _
      rw [List.getElem?_set_ne hij]
      exact hj

end moves

/-! ## A client without a state -/

section stateless
variable {e : EngineRun} {c : Client σ} {s₀ : PState}

/-- A transition of the run without its client. -/
def runPart (t : Trans (RunState × σ) RunAct) : Trans RunState RunAct :=
  ⟨t.pre.1, t.lbl, t.post.1⟩

theorem Startable.withAnswers (h : Startable e s₀) (answers : Nat → Nat → Outcome) :
    Startable (e.withAnswers answers) s₀ :=
  ⟨h.reachable, h.fresh, h.unclaimed, h.size, h.poolSize, h.chunkSize⟩

/-- Every client that gives these answers to what was asked has the run. -/
def Explains (e : EngineRun) (s₀ : PState) (tr : List (Trans (RunState × σ) RunAct))
    (s : RunState) (answers : Nat → Nat → Outcome) : Prop :=
  ∀ answers', (∀ id n, Answered s id n → answers' id n = answers id n) →
    ((e.withAnswers answers').live s₀).Run (tr.map runPart) s

theorem Explains.run {tr : List (Trans (RunState × σ) RunAct)} {s : RunState}
    {answers : Nat → Nat → Outcome} (h : Explains e s₀ tr s answers) :
    ((e.withAnswers answers).live s₀).Run (tr.map runPart) s :=
  h answers fun _ _ _ => rfl

/-- The attempt at which a coroutine stands has not been answered. -/
theorem Explains.open (h₀ : Startable e s₀) {tr : List (Trans (RunState × σ) RunAct)}
    {s : RunState} {answers : Nat → Nat → Outcome} (h : Explains e s₀ tr s answers) {τ : RowTask}
    (hτ : τ ∈ s.proc.tasks) : ¬ Answered s τ.item.id τ.stage.answered := by
  intro ⟨τ', hτ', hid, hlt⟩
  have hb := runBooks_reachable (h₀.withAnswers answers) h.run.reachable
  obtain rfl := List.inj_on_of_nodup_map hb.rows.nodup hτ' hτ hid
  exact Nat.lt_irrefl _ hlt

/-- The answer that a coroutine got comes to those that explain the run. -/
theorem explains_row (h₀ : Startable e s₀) {tr : List (Trans (RunState × σ) RunAct)}
    {s v : RunState × σ} {answers : Nat → Nat → Outcome} (h : Explains e s₀ tr s.1 answers)
    (hl : LeasesLive e s.1) {i : Nat} {latencyMs : Int} {τ : RowTask} {o : Outcome}
    (hτ : s.1.proc.tasks[i]? = some τ)
    (hm : (e.withAnswers fun _ _ => o).step s.1 (.row i latencyMs) = some v.1) :
    Explains e s₀ (tr ++ [⟨s, .row i latencyMs, v⟩]) v.1
      fun id n => if id = τ.item.id ∧ n = τ.stage.answered then o else answers id n := by
  intro answers' hag
  have hmem := List.mem_of_getElem? hτ
  have hstep : (e.withAnswers answers').step s.1 (.row i latencyMs) = some v.1 := by
    rw [row_congr answers' (fun _ _ => o) hτ fun st hst => ?_, hm]
    obtain ⟨act, stage, es, hn, hs, htasks⟩ := row_next hτ hm
    have hlt := answered_step hn hs
    rw [hst] at hlt
    have hans : Answered v.1 τ.item.id st.attempt := by
      refine ⟨{ τ with stage }, ?_, rfl, hlt⟩
      rw [htasks]
      exact List.mem_set (List.getElem?_eq_some_iff.mp hτ).1 _
    exact (hag _ _ hans).trans (if_pos ⟨rfl, by rw [hst]; rfl⟩)
  rw [List.map_append]
  refine (h answers' fun id n ha => ?_).snoc ⟨hstep, hl⟩
  refine (hag id n (answered_mono hstep ha)).trans (if_neg fun heq => ?_)
  rw [heq.1, heq.2] at ha
  exact h.open h₀ hmem ha

theorem explained (h₀ : Startable e s₀) {tr : List (Trans (RunState × σ) RunAct)}
    {s : RunState × σ} (h : (e.liveWith c s₀).Run tr s) :
    ∃ answers, Explains e s₀ tr s.1 answers := by
  refine h.induct (P := fun tr s => ∃ answers, Explains e s₀ tr s.1 answers) ?_ ?_
  · intro s hs
    exact ⟨e.client, fun answers _ => .nil hs.1⟩
  · intro tr s l v _ ih hst
    obtain ⟨answers, hx⟩ := ih
    obtain ⟨hst, hl⟩ := hst
    cases withMove_of_step hst with
    | row hτ hm => exact ⟨_, explains_row h₀ hx hl hτ hm⟩
    | other hno hm =>
      refine ⟨answers, fun answers' hag => ?_⟩
      have hstep : (e.withAnswers answers').step s.1 l = some v.1 := by
        rw [step_withAnswers hno, hm]
      rw [List.map_append]
      exact (hx answers' fun id n ha => hag id n (answered_mono hstep ha)).snoc ⟨hstep, hl⟩

/-- **A client is asked for each attempt once.** Whatever the client remembers,
a run in which every lease holds is one with answers that depend on the row and
the attempt only. -/
theorem stateless_run (h₀ : Startable e s₀) {tr : List (Trans (RunState × σ) RunAct)}
    {s : RunState × σ} (h : (e.liveWith c s₀).Run tr s) :
    ∃ answers, ((e.withAnswers answers).live s₀).Run (tr.map runPart) s.1 := by
  obtain ⟨answers, hx⟩ := explained h₀ h
  exact ⟨answers, hx.run⟩

theorem booksWith (h₀ : Startable e s₀) {s : RunState × σ}
    (h : (e.liveWith c s₀).Reachable s) :
    ∃ answers, RunBooks (e.withAnswers answers) s₀ s.1 := by
  obtain ⟨tr, hr⟩ := h
  obtain ⟨answers, hr'⟩ := stateless_run h₀ hr
  exact ⟨answers, runBooks_reachable (h₀.withAnswers answers) hr'.reachable⟩

/-- A step of the run is one with answers of their own. -/
theorem stateless_step (h₀ : Startable e s₀) {s v : RunState × σ} {l : RunAct}
    (h : (e.liveWith c s₀).Reachable s) (hst : (e.liveWith c s₀).step s l v) :
    ∃ answers, ((e.withAnswers answers).live s₀).Reachable s.1 ∧
      ((e.withAnswers answers).live s₀).step s.1 l v.1 := by
  obtain ⟨tr, hr⟩ := h
  obtain ⟨answers, hr'⟩ := stateless_run h₀ (hr.snoc hst)
  rw [List.map_append] at hr'
  obtain ⟨h1, h2, -⟩ := LTS.Run.split hr'
  exact ⟨answers, h1.reachable, h2⟩

/-! ## The end of a run -/

theorem ranked_with (h₀ : Startable e s₀) :
    (e.liveWith c s₀).Ranked RunAct.progress fun s => e.rank s₀ s.1 := by
  refine ⟨fun s l v hs hst => ?_, fun s l v hs hst hl => ?_⟩
  · obtain ⟨answers, hr, hst'⟩ := stateless_step h₀ hs hst
    exact (run_ranked (h₀.withAnswers answers)).keeps _ _ _ hr hst'
  · obtain ⟨answers, hr, hst'⟩ := stateless_step h₀ hs hst
    exact (run_ranked (h₀.withAnswers answers)).lowers _ _ _ hr hst' hl

/-- A coroutine that can move with some answer can move with any. -/
theorem row_enabled {u w : RunState} {i : Nat} {lat : Int} (h : e.step u (.row i lat) = some w)
    (answers : Nat → Nat → Outcome) :
    ∃ w' lat', (e.withAnswers answers).step u (.row i lat') = some w' := by
  cases runMove_of_step h with
  | @row _ _ τ act stage es q hτ hn hs hq =>
    cases hst : τ.stage with
    | calling st =>
      have hnext : τ.next ((e.withAnswers answers).client τ.item.id) =
          some (.answer (answers τ.item.id st.attempt)) := by
        simp only [RowTask.next, hst]
        rfl
      obtain ⟨w', hw'⟩ := row_possible hτ hnext (.inl (by rw [hst]; rfl))
      exact ⟨w', 0, hw'⟩
    | _ =>
      refine ⟨_, lat, (row_congr answers e.client hτ fun st hc => ?_).trans h⟩
      rw [hst] at hc
      cases hc

theorem may_progress_with (h₀ : Startable e s₀) {s : RunState × σ}
    (h : (e.liveWith c s₀).Reachable s) (hl : LeasesLive e s.1) (hleft : ¬ AllLeft e s.1) :
    (e.liveWith c s₀).MayProgress RunAct.progress s := by
  obtain ⟨tr, hr⟩ := h
  obtain ⟨answers, hr'⟩ := stateless_run h₀ hr
  obtain ⟨l, w, hp, hst, -⟩ := may_progress (h₀.withAnswers answers) hr'.reachable hl hleft
  cases l with
  | row i lat =>
    obtain ⟨τ, hτ, -⟩ := Option.bind_eq_some_iff.mp hst
    obtain ⟨w', lat', hw'⟩ := row_enabled hst fun _ _ => (c.call s.2 τ).1
    refine ⟨.row i lat', (w', if τ.stage.inCall then (c.call s.2 τ).2 else s.2), rfl, ?_, hl⟩
    exact Option.bind_eq_some_iff.mpr ⟨τ, hτ, Option.map_eq_some_iff.mpr ⟨w', hw', rfl⟩⟩
  | pool | gathered =>
    exact ⟨_, (w, s.2), hp, Option.map_eq_some_iff.mpr ⟨w, hst, rfl⟩, hl⟩

/-- A fair schedule ends with all workers gone, whatever the client answers. -/
theorem workers_leave_with (h₀ : Startable e s₀) {state : Nat → RunState × σ}
    {label : Nat → RunAct} (hs : (e.liveWith c s₀).Schedule state label)
    (hf : (e.liveWith c s₀).Fair RunAct.progress state label) : ∃ n, AllLeft e (state n).1 := by
  obtain ⟨n, hn⟩ := (ranked_with h₀).ends hs hf
  refine ⟨n, Classical.byContradiction fun hleft => hn ?_⟩
  exact may_progress_with h₀ (hs.reachable n) (hs.step n).2 hleft

/-- **Any client will do.** The workers share a client that may answer out of all
that it was asked before. While no lease runs out under a living worker, some
fixed answer for each attempt at each row explains the whole run, whose effect is
at the end that of the sequential loop with these answers; and a fair schedule
comes to this end. -/
theorem any_client_sequential (h₀ : Startable e s₀) :
    (∀ tr s, (e.liveWith c s₀).Run tr s →
      ∃ answers, ((e.withAnswers answers).live s₀).Run (tr.map runPart) s.1 ∧
        (AllLeft e s.1 → Sequential (e.withAnswers answers) s₀ s.1)) ∧
    ∀ state label, (e.liveWith c s₀).Schedule state label →
      (e.liveWith c s₀).Fair RunAct.progress state label → ∃ n, AllLeft e (state n).1 := by
  refine ⟨fun tr s hr => ?_, fun state label hs hf => workers_leave_with h₀ hs hf⟩
  obtain ⟨answers, hr'⟩ := stateless_run h₀ hr
  have h₀' := h₀.withAnswers answers
  exact ⟨answers, hr', fun hl => sequential_of_allLeft h₀' hl (runBooks_reachable h₀' hr'.reachable)⟩

end stateless

/-! ## The rows at the end -/

/-- At the end each waiting row has the record that its coroutine returned. -/
theorem final_rows {e : EngineRun} {s₀ : PState} {s : RunState} (h₀ : Startable e s₀)
    (hl : AllLeft e s) (hb : RunBooks e s₀ s) :
    List.Forall₂ (fun r₀ r => if e.takes r₀ then
      ∃ τ ∈ s.proc.tasks, ∃ res, τ.item = claimedItem r₀ ∧ τ.result = some res ∧ r₀.SameKey r ∧
        r.status = res.status ∧ r.error = res.error ∧ r.attempts = res.attempts
      else r = r₀) s₀.items.rows s.pool.items.rows := by
  refine forall₂_imp_mem hb.rows.rows fun r₀ hr₀ r hr hnow => ?_
  cases hnow with
  | other ho he => rw [if_neg (by rw [ho]; exact Bool.false_ne_true), he]
  | queued hq he hn =>
    obtain ⟨τ, hτ, hi⟩ := hl.taken h₀ hb (List.mem_filter.mpr ⟨hr₀, hq⟩)
    exact absurd (by rw [hi]; rfl) (hn τ hτ)
  | taken ht hτ hi hk hc hw ho =>
    -- its owner has left, and holds no chunk
    obtain ⟨k, hkw, -, c, hcm, -⟩ := (owners_reachable hb.working.reachable).holds r hr hc _ ho
    rw [hl.claiming hb.working hw hkw] at hcm
    cases hcm
  | @finished τ res ht hτ hi hres hk hs herr ha =>
    rw [if_pos ht]
    exact ⟨τ, hτ, res, hi, hres, hk, hs, herr, ha⟩

/-! ## The coroutines and their client -/

/-- What a step is for the process of the coroutines. -/
def procActWith (e : EngineRun) (c : Client σ) (s : RunState × σ) (l : RunAct) : Option ProcAct :=
  match l with
  | .row i _ => s.1.proc.tasks[i]?.bind fun τ =>
      procAct (e.withAnswers fun _ _ => (c.call s.2 τ).1) s.1 l
  | l => procAct e s.1 l

theorem next_call {c : Client σ} {x : σ} {τ : RowTask} {act : RowAct}
    (h : (τ.next fun _ => (c.call x τ).1) = some act) : c.allows x τ act = true ∧
      c.after x τ act = if τ.stage.inCall then (c.call x τ).2 else x := by
  cases hst : τ.stage <;> simp only [RowTask.next, hst] at h <;> cases h
  · exact ⟨rfl, rfl⟩
  · exact ⟨decide_eq_true rfl, rfl⟩
  · exact ⟨rfl, rfl⟩

theorem client_process (e : EngineRun) (c : Client σ) (s₀ : PState) :
    (e.systemWith c s₀).Refines (c.process e.maxConcurrency 0) (fun s => (s.1.proc, s.2))
      (procActWith e c) := by
  refine ⟨fun s hs => ⟨?_, hs.2⟩, fun s l v _ hst => ?_⟩
  · obtain ⟨n, hn, hs⟩ := hs.1
    exact ⟨n, hn, by rw [hs]⟩
  · obtain ⟨u, x⟩ := v
    cases withMove_of_step hst with
    | other hno hm hc =>
      obtain rfl : x = s.2 := hc
      cases runMove_of_step hm with
      | @pool a p ha hp => cases a <;> rfl
      | row => exact absurd rfl (hno _ _)
      | gathered => rfl
    | @row i lat τ hτ hm hc =>
      obtain rfl : x = _ := hc
      cases runMove_of_step hm with
      | @row _ _ τ' act stage es q hτ' hn hs hq =>
        obtain rfl := Option.some.inj (hτ'.symm.trans hτ)
        obtain ⟨ha, hx⟩ := next_call hn
        have hproc : s.1.proc.step (.row i act lat) =
            some { q with tasks := s.1.proc.tasks.set i { τ' with stage } } := by
          simp only [Proc.step, hτ, Option.bind_some, hs, hq, Option.map_some]
        simp only [procActWith, procAct, hτ, Option.bind_some]
        rw [show τ'.next _ = some act from hn]
        show c.step (s.1.proc, s.2) (.row i act lat) = some _
        simp only [Client.step, hτ, Option.bind_some, ha, if_true, hproc, Option.map_some, hx]

/-! ## Non-vacuity -/

theorem startable_of_exec {e : EngineRun} {acts : List Act} {tr : List (Trans PState Act)}
    {s₀ : PState} (he : LTS.exec step (.init 0) acts = some (tr, s₀))
    (hnew : e.workers.all (fun w => (s₀.workers w).isNone) = true)
    (hun : s₀.items.rows.all (fun r => r.status != .claimed) = true)
    (hsize : e.workers.length = e.settings.workerPoolSize)
    (hpool : 1 ≤ e.settings.workerPoolSize) (hchunk : 1 ≤ e.settings.chunkSize) :
    Startable e s₀ := by
  refine ⟨⟨tr, _, ⟨0, rfl⟩, LTS.path_of_exec he⟩, fun w hw => ?_, fun r hr _ => ?_, hsize, hpool,
    hchunk⟩
  · simpa using List.all_eq_true.mp hnew w hw
  · simpa using List.all_eq_true.mp hun r hr

theorem allLeft_of_all {e : EngineRun} {s : RunState}
    (h : e.workers.all (fun w => (s.pool.workers w).any fun k => k.life = .left) = true) :
    AllLeft e s := by
  intro w hw
  simpa [Option.any_eq_true] using List.all_eq_true.mp h w hw

theorem liveWith_of_exec {e : EngineRun} {c : Client σ} {s₀ : PState} {n : Nat}
    (hn : newLimiter e.maxConcurrency = .ok n) {acts : List RunAct}
    {tr : List (Trans (RunState × σ) RunAct)} {s : RunState × σ}
    (he : LTS.exec (e.stepWith c) (⟨e.started s₀, ⟨n, 0, []⟩⟩, c.init) acts = some (tr, s))
    (hl : tr.all (fun t => leasesHold t.pre.1) = true) : (e.liveWith c s₀).Run tr s := by
  refine ⟨_, ⟨⟨n, hn, rfl⟩, rfl⟩, (LTS.path_of_exec he).restrict fun t ht => ?_⟩
  exact leasesLive_of_hold (List.all_eq_true.mp hl t ht)

/-- A client that has one answer to give. -/
def quota : Client Bool where
  init := false
  complete used _ := if used then (.permanent "quota", true) else (.success "ok", true)

def quotaRows : EngineRun where
  job := "j"
  settings := { workerPoolSize := 1, chunkSize := 5 }
  maxConcurrency := 4
  workers := ["w1"]
  client _ _ := .success ""

def quotaRun : List RunAct :=
  [.pool (.claim "w1" chunk1 [⟨1, "a", "hi", 1⟩, ⟨2, "b", "ho", 1⟩]), .row 0 0, .row 1 0, .row 1 1,
    .row 0 2, .gathered "w1", .pool (.written "w1"), .pool (.complete "w1" 2),
    .pool (.claim "w1" chunk1 [])]

theorem any_client_sequential_quota : ∃ s₀ s answers, Startable quotaRows s₀ ∧
    (quotaRows.liveWith quota s₀).Reachable s ∧ Sequential (quotaRows.withAnswers answers) s₀ s.1 ∧
      s.1.pool.items.rows.map (·.status) = [.failed, .succeeded] := by
  obtain ⟨⟨tr₀, s₀⟩, he₀, hnew, hun, ⟨tr, s⟩, he, hl, hleft, hst⟩ : ∃ p,
      LTS.exec step (.init 0) [.bulkInsert "j" [⟨"a", "hi"⟩, ⟨"b", "ho"⟩] []] = some p ∧
      quotaRows.workers.all (fun w => (p.2.workers w).isNone) = true ∧
      p.2.items.rows.all (fun r => r.status != .claimed) = true ∧
      ∃ q, LTS.exec (quotaRows.stepWith quota) (⟨quotaRows.started p.2, ⟨4, 0, []⟩⟩, false)
          quotaRun = some q ∧
        q.1.all (fun t => leasesHold t.pre.1) = true ∧
        quotaRows.workers.all (fun w => (q.2.1.pool.workers w).any fun k => k.life = .left) = true ∧
        q.2.1.pool.items.rows.map (·.status) = [.failed, .succeeded] :=
    ⟨_, rfl, by decide, by decide, _, rfl, by decide +kernel, by decide +kernel,
      by decide +kernel⟩
  have h₀ : Startable quotaRows s₀ :=
    startable_of_exec he₀ hnew hun rfl (by decide) (by decide)
  have hr : (quotaRows.liveWith quota s₀).Run tr s := liveWith_of_exec rfl he hl
  obtain ⟨answers, -, hseq⟩ := (any_client_sequential h₀).1 tr s hr
  exact ⟨s₀, s, answers, h₀, ⟨tr, hr⟩, hseq (allLeft_of_all hleft), hst⟩

end BatchSystem.Engine
