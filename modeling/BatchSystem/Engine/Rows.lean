import BatchSystem.Core.LTS
import BatchSystem.Core.Lists
import BatchSystem.Engine.Worker

/-!
# Rows in flight

The row coroutines of one process and its one `ConcurrencyLimiter`. A chunk is
gathered as one coroutine per item; each waits for a permit, runs
`_process_row` under it, and stands at a client call or in a back-off sleep
until it returns. The coroutines of all workers and jobs of the process
interleave at these awaits, and an exception, such as a cancellation, may come
up at each of them.

* `RowTask.step`: what one coroutine does between two awaits, with its calls of
  the semaphore and of the gauge in their order (`Effect`).
* `balanced_run`: the free permits and the gauge follow the number of bodies.
* `inflight_bounded`: at most `max_concurrency` bodies, and each takes one
  permit and gives it back once.
* `outcome_step`: a coroutine that is not interrupted computes `processRow`.
-/
namespace BatchSystem.Engine

open BatchSystem.Core Domain Storage

/-! ## One coroutine -/

/-- A call of the semaphore or of the INFLIGHT gauge. -/
inductive Effect where
  | acquire
  | inc
  | dec
  | release
  deriving DecidableEq, Repr

/-- Where a coroutine stands. `cancelled`: it never got a permit. -/
inductive Stage where
  | waiting
  | calling (st : RowState)
  | sleeping (st : RowState)
  | returned (text : Option String) (st : RowState) (latencyMs : Int)
  | raised
  | cancelled
  deriving DecidableEq, Repr

/-- The body of `_process_row` is running. -/
def Stage.active : Stage → Bool
  | .calling _ | .sleeping _ => true
  | .waiting | .returned .. | .raised | .cancelled => false

/-- `client.complete` is running. -/
def Stage.inCall : Stage → Bool
  | .calling _ => true
  | _ => false

/-- All that a coroutine has done to the semaphore and the gauge. -/
def Stage.effects : Stage → List Effect
  | .waiting | .cancelled => []
  | .calling _ | .sleeping _ => [.acquire, .inc]
  | .returned .. | .raised => [.acquire, .inc, .dec, .release]

/-- One `run_one` of `_process_chunk`. -/
structure RowTask where
  chunkId : ChunkId
  settings : Settings
  item : ClaimedItem
  stage : Stage := .waiting
  deriving DecidableEq

/-- What an await of the coroutine ends in. -/
inductive RowAct where
  | enter
  | answer (o : Outcome)
  | wake
  /-- A cancellation, or an exception that no `except` clause takes. -/
  | raise
  deriving DecidableEq

/-- The head of the loop over the attempts; without a next attempt the row has
failed. mirrors app/engine/worker.py:113-120,164-178 -/
def nextAttempt (settings : Settings) (item : ClaimedItem) (latencyMs : Int) (attempt : Nat)
    (st : RowState) : Stage :=
  if attempt < settings.retryMaxAttempts then
    .calling { st with attempt, requests := st.requests ++ [requestFor settings item] }
  else .returned none st latencyMs

/-- mirrors app/engine/worker.py:121-159 -/
def answered (settings : Settings) (item : ClaimedItem) (latencyMs : Int) (st : RowState) :
    Outcome → Stage
  | .success text => .returned (some text) st latencyMs
  | .retryable msg =>
    let st := { st with lastError := some msg }
    if st.attempt < settings.retryMaxAttempts - 1 then
      .sleeping { st with sleeps := st.sleeps ++ [st.attempt] }
    else nextAttempt settings item latencyMs (st.attempt + 1) st
  | .permanent msg => .returned none { st with lastError := some msg } latencyMs
  | .unexpected msg =>
    .returned none { st with lastError := some ("unexpected: " ++ msg) } latencyMs

/-- The `finally` clause, then the end of `async with`.
mirrors app/engine/worker.py:160-161 and app/engine/concurrency.py:20-21 -/
def leave (v : Stage) : List Effect := if v.active then [] else [.dec, .release]

/-- `latencyMs` is what the clock says if the row ends here. -/
def RowTask.step (τ : RowTask) (latencyMs : Int) : RowAct → Option (Stage × List Effect)
  -- mirrors app/engine/concurrency.py:20-21 and app/engine/worker.py:101-113
  | .enter => match τ.stage with
    | .waiting =>
      let v := nextAttempt τ.settings τ.item latencyMs 0 {}
      some (v, .acquire :: .inc :: leave v)
    | _ => none
  | .answer o => match τ.stage with
    | .calling st =>
      let v := answered τ.settings τ.item latencyMs st o
      some (v, leave v)
    | _ => none
  | .wake => match τ.stage with
    | .sleeping st =>
      let v := nextAttempt τ.settings τ.item latencyMs (st.attempt + 1) st
      some (v, leave v)
    | _ => none
  | .raise => match τ.stage with
    | .waiting => some (.cancelled, [])
    | .calling _ | .sleeping _ => some (.raised, leave .raised)
    | _ => none

/-! ## The process -/

/-- The free permits of a new limiter. mirrors app/engine/concurrency.py:14-17 -/
def newLimiter (maxConcurrency : Int) : Except String Nat :=
  if maxConcurrency < 1 then .error "max_concurrency must be >= 1" else .ok maxConcurrency.toNat

/-- `sem`: the free permits. A coroutine that is over keeps its place. -/
structure Proc where
  sem : Nat
  inflight : Int
  tasks : List RowTask

/-- `latencyMs` as in `RowTask.step`. -/
inductive ProcAct where
  | gather (chunkId : ChunkId) (settings : Settings) (chunk : List ClaimedItem)
  | row (i : Nat) (act : RowAct) (latencyMs : Int)

namespace Proc

/-- The body of a coroutine is running. -/
def active (p : Proc) : Nat := p.tasks.countP (·.stage.active)

/-- Running `client.complete` calls. -/
def calls (p : Proc) : Nat := p.tasks.countP (·.stage.inCall)

/-- `acquire` waits until a permit is free. -/
def apply (p : Proc) : Effect → Option Proc
  | .acquire => if 0 < p.sem then some { p with sem := p.sem - 1 } else none
  | .inc => some { p with inflight := p.inflight + 1 }
  | .dec => some { p with inflight := p.inflight - 1 }
  | .release => some { p with sem := p.sem + 1 }

def applyAll (p : Proc) : List Effect → Option Proc
  | [] => some p
  | e :: es => (p.apply e).bind fun q => q.applyAll es

/-- mirrors app/engine/worker.py:94-98 -/
def gather (p : Proc) (chunkId : ChunkId) (settings : Settings) (chunk : List ClaimedItem) : Proc :=
  { p with tasks := p.tasks ++ chunk.map fun item => { chunkId, settings, item } }

def step (p : Proc) : ProcAct → Option Proc
  | .gather chunkId settings chunk => some (p.gather chunkId settings chunk)
  | .row i act latencyMs =>
    p.tasks[i]?.bind fun τ => (τ.step latencyMs act).bind fun r =>
      (p.applyAll r.2).map fun q => { q with tasks := p.tasks.set i { τ with stage := r.1 } }

end Proc

/-- A process with a new limiter; the gauge may stand anywhere. -/
def process (maxConcurrency inflight : Int) : LTS Proc ProcAct :=
  LTS.ofFn (fun p => ∃ n, newLimiter maxConcurrency = .ok n ∧ p = ⟨n, inflight, []⟩) Proc.step

inductive ProcMove (p : Proc) : ProcAct → Proc → Prop
  | gather (chunkId : ChunkId) (settings : Settings) (chunk : List ClaimedItem) :
      ProcMove p (.gather chunkId settings chunk) (p.gather chunkId settings chunk)
  | row {i : Nat} {act : RowAct} {latencyMs : Int} {τ : RowTask} {v : Stage} {es : List Effect}
      {q : Proc} (hτ : p.tasks[i]? = some τ) (hs : τ.step latencyMs act = some (v, es))
      (hq : p.applyAll es = some q) :
      ProcMove p (.row i act latencyMs) { q with tasks := p.tasks.set i { τ with stage := v } }

theorem procMove_of_step {p q : Proc} {l : ProcAct} (h : p.step l = some q) : ProcMove p l q := by
  cases l with
  | gather chunkId settings chunk =>
    simp only [Proc.step, Option.some.injEq] at h
    subst h
    exact .gather chunkId settings chunk
  | row i act latencyMs =>
    simp only [Proc.step, Option.bind_eq_some_iff, Option.map_eq_some_iff] at h
    obtain ⟨τ, hτ, ⟨v, es⟩, hs, q', hq, rfl⟩ := h
    exact .row hτ hs hq

/-! ## Permits and gauge -/

/-- What a list of effects does to the semaphore and to the gauge. -/
theorem applyAll_eq {p q : Proc} {es : List Effect} (h : p.applyAll es = some q) :
    q.tasks = p.tasks ∧ q.sem + es.count .acquire = p.sem + es.count .release ∧
      q.inflight + es.count .dec = p.inflight + es.count .inc := by
  induction es generalizing p with
  | nil =>
    cases h
    simp
  | cons e es ih =>
    simp only [Proc.applyAll, Option.bind_eq_some_iff] at h
    obtain ⟨u, hu, h⟩ := h
    obtain ⟨h1, h2, h3⟩ := ih h
    cases e with
    | acquire =>
      simp only [Proc.apply, Option.ite_none_right_eq_some, Option.some.injEq] at hu
      obtain ⟨hpos, rfl⟩ := hu
      simp only [List.count_cons, beq_iff_eq] at h2 h3 ⊢
      refine ⟨h1, ?_, ?_⟩ <;> simp <;> omega
    | inc | dec | release =>
      cases hu
      simp only [List.count_cons, beq_iff_eq] at h2 h3 ⊢
      refine ⟨h1, ?_, ?_⟩ <;> simp <;> omega

/-- What a coroutine does in a step comes on top of what it has done. -/
theorem effects_step {τ : RowTask} {latencyMs : Int} {act : RowAct} {v : Stage} {es : List Effect}
    (h : τ.step latencyMs act = some (v, es)) : v.effects = τ.stage.effects ++ es := by
  have hnext : ∀ n st, let u := nextAttempt τ.settings τ.item latencyMs n st
      u.effects = [.acquire, .inc] ++ leave u := by
    intro n st
    unfold nextAttempt
    split <;> rfl
  have hans : ∀ st o, let u := answered τ.settings τ.item latencyMs st o
      u.effects = [.acquire, .inc] ++ leave u := by
    intro st o
    cases o with
    | success | permanent | unexpected => rfl
    | retryable msg =>
      simp only [answered]
      split
      · rfl
      · exact hnext _ _
  cases act <;> cases hs : τ.stage <;> simp only [RowTask.step, hs] at h <;> cases h
  · exact hnext _ _
  · exact hans _ _
  · exact hnext _ _
  · rfl
  · rfl
  · rfl

/-- A body holds one permit and counts once in the gauge. -/
theorem effects_count (v : Stage) :
    v.effects.count .acquire = v.effects.count .release + v.active.toNat ∧
      v.effects.count .inc = v.effects.count .dec + v.active.toNat := by
  cases v <;> exact ⟨rfl, rfl⟩

/-- What coroutine `i` did in a transition. -/
def effectsOf (i : Nat) (t : Trans Proc ProcAct) : List Effect :=
  match t.lbl with
  | .gather .. => []
  | .row j act latencyMs =>
    if j = i then (t.pre.tasks[i]?.bind fun τ => τ.step latencyMs act).elim [] Prod.snd else []

/-- `n` permits in all, and the gauge started at `inflight`. -/
structure Balanced (n : Nat) (inflight : Int) (tr : List (Trans Proc ProcAct)) (p : Proc) :
    Prop where
  permits : p.sem + p.active = n
  gauge : p.inflight = inflight + p.active
  effects : ∀ i, tr.flatMap (effectsOf i) = p.tasks[i]?.elim [] (·.stage.effects)

theorem balanced_step {n : Nat} {inflight : Int} {tr : List (Trans Proc ProcAct)} {p q : Proc}
    {l : ProcAct} (h : Balanced n inflight tr p) (hm : ProcMove p l q) :
    Balanced n inflight (tr ++ [⟨p, l, q⟩]) q := by
  cases hm with
  | gather chunkId settings chunk =>
    have hz : (chunk.map fun item => (⟨chunkId, settings, item, .waiting⟩ : RowTask)).countP
        (·.stage.active) = 0 := by
      rw [List.countP_map]
      exact List.countP_eq_zero.mpr fun c _ hc => by cases hc
    have hact : (p.gather chunkId settings chunk).active = p.active := by
      unfold Proc.active Proc.gather
      rw [List.countP_append, hz, Nat.add_zero]
    refine ⟨?_, ?_, fun i => ?_⟩
    · rw [hact]; exact h.permits
    · rw [hact]; exact h.gauge
    · rw [List.flatMap_append, h.effects i]
      show _ ++ [] = _
      rw [List.append_nil]
      show _ = (p.tasks ++ _)[i]?.elim [] _
      rw [List.getElem?_append]
      split
      · rfl
      · -- a new coroutine has done nothing
        rename_i hlt
        rw [List.getElem?_eq_none (Nat.le_of_not_lt hlt), List.getElem?_map]
        cases chunk[i - p.tasks.length]? <;> rfl
  | @row j act latencyMs τ v es q hτ hs hq =>
    obtain ⟨-, hsem, hgauge⟩ := applyAll_eq hq
    have heff := effects_step hs
    have hset : (p.tasks.set j { τ with stage := v }).countP (·.stage.active) +
        τ.stage.active.toNat = p.active + v.active.toNat := countP_set_toNat hτ
    obtain ⟨ha₀, hi₀⟩ := effects_count τ.stage
    obtain ⟨ha₁, hi₁⟩ := effects_count v
    rw [heff, List.count_append, List.count_append] at ha₁ hi₁
    have hp := h.permits
    have hg := h.gauge
    refine ⟨?_, ?_, fun i => ?_⟩
    · show q.sem + (p.tasks.set j { τ with stage := v }).countP _ = n
      omega
    · show q.inflight = inflight + ((p.tasks.set j { τ with stage := v }).countP _ : Nat)
      omega
    · rw [List.flatMap_append, h.effects i]
      show _ ++ (effectsOf i _ ++ []) = _
      rw [List.append_nil, effectsOf]
      by_cases hji : j = i
      · subst hji
        obtain ⟨hi, -⟩ := List.getElem?_eq_some_iff.mp hτ
        simp only [if_pos, hτ, Option.bind_some, hs, Option.elim_some, List.getElem?_set_self hi]
        exact heff.symm
      · simp only [if_neg hji, List.append_nil, List.getElem?_set_ne hji]

theorem balanced_run {maxConcurrency inflight : Int} {tr : List (Trans Proc ProcAct)} {p : Proc}
    (h : (process maxConcurrency inflight).Run tr p) :
    Balanced maxConcurrency.toNat inflight tr p ∧ 1 ≤ maxConcurrency := by
  refine h.induct (P := fun tr p => Balanced maxConcurrency.toNat inflight tr p ∧
    1 ≤ maxConcurrency) ?_ fun tr p l q _ ih hst =>
      ⟨balanced_step ih.1 (procMove_of_step hst), ih.2⟩
  rintro _ ⟨n, hn, rfl⟩
  unfold newLimiter at hn
  split at hn
  · cases hn
  · cases hn
    exact ⟨⟨rfl, (Int.add_zero _).symm, fun i => rfl⟩, by omega⟩

/-- **In-flight work is bounded on every path**: whatever the coroutines of a
process do, at most `max_concurrency` bodies are active, the gauge counts them,
and each takes one permit and gives it back once, so that all permits are free
when no body is active. -/
theorem inflight_bounded {maxConcurrency inflight : Int} {tr : List (Trans Proc ProcAct)}
    {p : Proc} (h : (process maxConcurrency inflight).Run tr p) :
    p.calls ≤ p.active ∧ p.active ≤ maxConcurrency ∧ p.inflight = inflight + p.active ∧
      (∀ i τ, p.tasks[i]? = some τ → tr.flatMap (effectsOf i) = τ.stage.effects) ∧
      (p.active = 0 → p.sem = maxConcurrency ∧ p.inflight = inflight) := by
  obtain ⟨hb, hn⟩ := balanced_run h
  have hpermits := hb.permits
  have hgauge := hb.gauge
  refine ⟨?_, by omega, hgauge, fun i τ hτ => ?_, fun h0 => ⟨by omega, by omega⟩⟩
  · refine List.countP_mono_left fun τ _ hc => ?_
    cases hs : τ.stage <;> rw [hs] at hc <;> first | rfl | cases hc
  · rw [hb.effects i, hτ]
    rfl

/-! ## What a coroutine computes -/

/-- The attempts after `attempt`. -/
def later (settings : Settings) (attempt : Nat) : List Nat :=
  List.range' (attempt + 1) (settings.retryMaxAttempts - (attempt + 1))

/-- The loop over the attempts from the answer to a request on. -/
def afterCall (settings : Settings) (item : ClaimedItem) (client : Nat → Outcome) (st : RowState) :
    Option String × RowState :=
  match client st.attempt with
  | .success text => (some text, st)
  | .retryable msg =>
    let st := { st with lastError := some msg }
    if st.attempt < settings.retryMaxAttempts - 1 then
      attemptLoop settings item client (later settings st.attempt)
        { st with sleeps := st.sleeps ++ [st.attempt] }
    else attemptLoop settings item client (later settings st.attempt) st
  | .permanent msg => (none, { st with lastError := some msg })
  | .unexpected msg => (none, { st with lastError := some ("unexpected: " ++ msg) })

/-- What the loop over the attempts ends in, from where the coroutine stands. -/
def RowTask.outcome (τ : RowTask) (client : Nat → Outcome) : Option (Option String × RowState) :=
  match τ.stage with
  | .waiting =>
    some (attemptLoop τ.settings τ.item client (List.range τ.settings.retryMaxAttempts) {})
  | .calling st => some (afterCall τ.settings τ.item client st)
  | .sleeping st =>
    some (attemptLoop τ.settings τ.item client (later τ.settings st.attempt) st)
  | .returned text st _ => some (text, st)
  | .raised | .cancelled => none

/-- The record of a coroutine that returned.
mirrors app/engine/worker.py:131-137,169-178 -/
def RowTask.result (τ : RowTask) : Option ResultRecord :=
  match τ.stage with
  | .returned (some text) st latencyMs =>
    some { externalId := τ.item.externalId, status := .succeeded, response := some text,
           attempts := st.attempt + 1, latencyMs := some latencyMs }
  | .returned none st latencyMs =>
    some { externalId := τ.item.externalId, status := .failed, error := st.lastError,
           attempts := st.attempt + 1, latencyMs := some latencyMs }
  | _ => none

/-- The act is what `client` answers, and no interruption. -/
def RowTask.follows (τ : RowTask) (client : Nat → Outcome) : RowAct → Prop
  | .answer o => ∀ st, τ.stage = .calling st → o = client st.attempt
  | .raise => False
  | .enter | .wake => True

section outcome
variable {settings : Settings} {item : ClaimedItem} {client : Nat → Outcome}

theorem outcome_nextAttempt (cid : ChunkId) (latencyMs : Int) (n : Nat) (st : RowState) :
    RowTask.outcome ⟨cid, settings, item, nextAttempt settings item latencyMs n st⟩ client =
      some (attemptLoop settings item client
        (List.range' n (settings.retryMaxAttempts - n)) st) := by
  unfold nextAttempt
  split
  · rename_i hlt
    obtain ⟨m, hm⟩ : ∃ m, settings.retryMaxAttempts - n = m + 1 :=
      ⟨settings.retryMaxAttempts - n - 1, by omega⟩
    have hm' : settings.retryMaxAttempts - (n + 1) = m := by omega
    rw [hm, List.range'_succ, attemptLoop, ← hm']
    show some (afterCall settings item client _) = _
    rw [afterCall]
    cases client n <;> rfl
  · rename_i hge
    rw [Nat.sub_eq_zero_of_le (Nat.le_of_not_lt hge)]
    rfl

/-- A coroutine that is not interrupted stays on its way to the same end. -/
theorem outcome_step {τ : RowTask} {latencyMs : Int} {act : RowAct} {v : Stage}
    {es : List Effect} (h : τ.step latencyMs act = some (v, es)) (hf : τ.follows client act) :
    RowTask.outcome { τ with stage := v } client = τ.outcome client := by
  cases act with
  | raise => cases hf
  | enter =>
    cases hs : τ.stage <;> simp only [RowTask.step, hs] at h <;> cases h
    rw [outcome_nextAttempt]
    simp only [RowTask.outcome, hs, Nat.sub_zero, List.range_eq_range']
  | wake =>
    cases hs : τ.stage <;> simp only [RowTask.step, hs] at h <;> cases h
    rw [outcome_nextAttempt]
    simp only [RowTask.outcome, hs, later]
  | answer o =>
    cases hs : τ.stage with
    | calling st =>
      obtain rfl := hf st hs
      simp only [RowTask.step, hs, Option.some.injEq, Prod.mk.injEq] at h
      obtain ⟨rfl, -⟩ := h
      rw [show τ.outcome client = some (afterCall τ.settings τ.item client st) by
        simp only [RowTask.outcome, hs], afterCall]
      cases client st.attempt with
      | success | permanent | unexpected => rfl
      | retryable msg =>
        simp only [answered]
        by_cases hlt : st.attempt < τ.settings.retryMaxAttempts - 1
        · rw [if_pos hlt, if_pos hlt]
          rfl
        · rw [if_neg hlt, if_neg hlt]
          exact outcome_nextAttempt τ.chunkId latencyMs _ _
    | _ => simp only [RowTask.step, hs] at h; cases h

theorem returned_of_result {τ : RowTask} {res : ResultRecord} (h : τ.result = some res) :
    (∃ text st latencyMs, τ.stage = .returned text st latencyMs) ∧
      res.externalId = τ.item.externalId ∧ res.status.terminal = true := by
  unfold RowTask.result at h
  cases hs : τ.stage with
  | returned text st latencyMs =>
    rw [hs] at h
    cases text <;> cases h <;> exact ⟨⟨_, _, _, rfl⟩, rfl, rfl⟩
  | _ =>
    rw [hs] at h
    cases h

/-- The record of a coroutine that returned is that of `_process_row`. -/
theorem result_processRow {τ : RowTask} {text : Option String} {st : RowState} {latencyMs : Int}
    (hs : τ.stage = .returned text st latencyMs)
    (ho : τ.outcome client =
      some (attemptLoop τ.settings τ.item client (List.range τ.settings.retryMaxAttempts) {})) :
    τ.result = some (processRow τ.settings τ.item client latencyMs).1 ∧
      st = (processRow τ.settings τ.item client latencyMs).2 := by
  simp only [RowTask.outcome, hs, Option.some.injEq] at ho
  unfold processRow RowTask.result
  rw [← ho, hs]
  cases text <;> exact ⟨rfl, rfl⟩

end outcome

/-! ## Non-vacuity -/

/-- One permit for two rows: the first is retried and cancelled in its second
call, the other one is cancelled while it waits. -/
def cancelledRun (cid : ChunkId) : List ProcAct :=
  [.gather cid {} [⟨1, "a", "hi", 1⟩, ⟨2, "b", "hi", 1⟩], .row 0 .enter 0,
    .row 0 (.answer (.retryable "busy")) 0, .row 1 .raise 0, .row 0 .wake 0, .row 0 .raise 0]

theorem inflight_bounded_cancelled : ∃ tr p, (process 1 0).Run tr p ∧
    tr.flatMap (effectsOf 0) = [.acquire, .inc, .dec, .release] ∧
      tr.flatMap (effectsOf 1) = [] ∧ p.sem = 1 ∧ p.inflight = 0 := by
  obtain ⟨⟨tr, p⟩, he, h0, h1, hact⟩ : ∃ p,
      LTS.exec Proc.step ⟨1, 0, []⟩ (cancelledRun ⟨"c1", by simp⟩) = some p ∧
      p.2.tasks[0]?.map (·.stage) = some .raised ∧
      p.2.tasks[1]?.map (·.stage) = some .cancelled ∧ p.2.active = 0 :=
    ⟨_, rfl, rfl, rfl, rfl⟩
  have hr : (process 1 0).Run tr p := ⟨_, ⟨1, rfl, rfl⟩, LTS.path_of_exec he⟩
  obtain ⟨-, -, -, heff, hfree⟩ := inflight_bounded hr
  obtain ⟨τ₀, hτ₀, hs₀⟩ := Option.map_eq_some_iff.mp h0
  obtain ⟨τ₁, hτ₁, hs₁⟩ := Option.map_eq_some_iff.mp h1
  refine ⟨tr, p, hr, ?_, ?_, Int.ofNat_inj.mp (hfree hact).1, (hfree hact).2⟩
  · rw [heff 0 τ₀ hτ₀, hs₀]
    rfl
  · rw [heff 1 τ₁ hτ₁, hs₁]
    rfl

end BatchSystem.Engine
