import Mathlib.Algebra.Order.BigOperators.Group.List
import Mathlib.Data.List.Count
import BatchSystem.Engine.Rows

/-!
# The worker's metrics

The counters that `_process_row` and `Worker.run` increment, over any
interleaving of the row coroutines of a process. Between two awaits a coroutine
increments several of them; what they say together holds at every await,
whatever is cancelled.

* `RowTask.samples`: the increments of one coroutine between two awaits.
* `counts_step`: what they do to the balance of one coroutine.
* `rowTallied_run`: the calls that one coroutine has begun, and its requests.
* `metrics_add_up`: every request was answered for good or retried, and the
  processed rows are the records returned.
-/
namespace BatchSystem.Engine

open BatchSystem.Core Domain Storage

/-- A counter with its labels; of the latency histogram, its number of
observations. mirrors app/core/metrics.py:33-57 -/
inductive Counter where
  | chunksClaimed
  | itemsProcessed (status : ItemStatus)
  | inferenceRequests (model outcome : String)
  | inferenceLatency (model : String)
  | inferenceRetries (model : String)
  deriving DecidableEq, Repr

/-- The label of an answer. mirrors app/engine/worker.py:123,141,154,159 -/
def outcomeLabel : Outcome → String
  | .success _ => "success"
  | .retryable _ => "retryable_error"
  | .permanent _ => "permanent_error"
  | .unexpected _ => "unexpected"

/-- The increment at the end of a row. mirrors app/engine/worker.py:124,165 -/
def processedSample : Stage → List Counter
  | .returned (some _) _ _ => [.itemsProcessed .succeeded]
  | .returned none _ _ => [.itemsProcessed .failed]
  | _ => []

/-- The increments before the await at which the coroutine stands next.
mirrors app/engine/worker.py:122-124,141-143,154,159,165 -/
def RowTask.samples (τ : RowTask) (latencyMs : Int) : RowAct → List Counter
  | .enter => processedSample (nextAttempt τ.settings τ.item latencyMs 0 {})
  | .wake => match τ.stage with
    | .sleeping st =>
      processedSample (nextAttempt τ.settings τ.item latencyMs (st.attempt + 1) st)
    | _ => []
  | .answer o => match τ.stage with
    | .calling st =>
      let model := τ.settings.llmModel
      (match o with
        | .success _ => [.inferenceLatency model]
        | _ => []) ++ .inferenceRequests model (outcomeLabel o) ::
      ((match o with
        | .retryable _ =>
          if st.attempt < τ.settings.retryMaxAttempts - 1 then [.inferenceRetries model] else []
        | _ => []) ++ processedSample (answered τ.settings τ.item latencyMs st o))
    | _ => []
  | .raise => []

/-- The increments of a step of the process. mirrors app/engine/worker.py:64 -/
def samples (t : Trans Proc ProcAct) : List Counter :=
  match t.lbl with
  | .gather _ _ chunk => if chunk = [] then [] else [.chunksClaimed]
  | .row i act latencyMs => (t.pre.tasks[i]?.elim [] fun τ => τ.samples latencyMs act)

/-- The value of a counter after a run: how often it was incremented. -/
def metric (tr : List (Trans Proc ProcAct)) (c : Counter) : Nat := (tr.flatMap samples).count c

/-- The requests of all outcomes. -/
def requestsTotal (f : Counter → Nat) (model : String) : Nat :=
  f (.inferenceRequests model "success") + f (.inferenceRequests model "retryable_error") +
    f (.inferenceRequests model "permanent_error") + f (.inferenceRequests model "unexpected")

/-- The increments of the steps of coroutine `i`. -/
def rowSamples (i : Nat) (t : Trans Proc ProcAct) : List Counter :=
  match t.lbl with
  | .gather .. => []
  | .row j _ _ => if j = i then samples t else []

/-- What coroutine `i` contributes to a counter. -/
def rowMetric (i : Nat) (tr : List (Trans Proc ProcAct)) (c : Counter) : Nat :=
  (tr.flatMap (rowSamples i)).count c

/-- The step brings coroutine `i` to a call of the client. -/
def begins (i : Nat) (t : Trans Proc ProcAct) : Bool :=
  match t.lbl with
  | .gather .. => false
  | .row j _ _ => j == i && t.post.tasks[i]?.any (·.stage.inCall)

/-- The calls that coroutine `i` began, whether they were answered, are in flight
or were cut off. -/
def rowCalls (i : Nat) (tr : List (Trans Proc ProcAct)) : Nat := tr.countP (begins i)

/-- The records that the coroutines have returned so far. -/
def Proc.records (p : Proc) : List ResultRecord := p.tasks.filterMap RowTask.result

/-! ## One coroutine -/

/-- The row has succeeded, or failed. -/
def Stage.over (ok : Bool) : Stage → Bool
  | .returned text _ _ => text.isSome == ok
  | _ => false

/-- What the loop over the attempts keeps of its counter. -/
def Stage.inRange (maxAttempts : Nat) : Stage → Prop
  | .calling st => st.attempt < maxAttempts
  | .sleeping st => st.attempt + 1 < maxAttempts
  | _ => True

/-- The requests that a coroutine may have made. -/
def Stage.asked (maxAttempts : Nat) : Stage → Nat
  | .waiting | .cancelled => 0
  | .calling st => st.attempt
  | .sleeping st => st.attempt + 1
  | .returned .. | .raised => maxAttempts

/-- The calls that a coroutine may have begun. -/
def Stage.begun (maxAttempts : Nat) : Stage → Nat
  | .waiting | .cancelled => 0
  | .calling st | .sleeping st => st.attempt + 1
  | .returned .. | .raised => maxAttempts

/-- What the increments `f` of a coroutine say of its way from `u` to `v`. -/
structure Counts (settings : Settings) (f : Counter → Nat) (u v : Stage) : Prop where
  succeeded : f (.itemsProcessed .succeeded) + (u.over true).toNat = (v.over true).toNat
  failed : f (.itemsProcessed .failed) + (u.over false).toNat = (v.over false).toNat
  success : f (.inferenceRequests settings.llmModel "success") =
    f (.itemsProcessed .succeeded)
  latency : f (.inferenceLatency settings.llmModel) = f (.itemsProcessed .succeeded)
  requests : requestsTotal f settings.llmModel =
    f (.inferenceRetries settings.llmModel) + f (.itemsProcessed .succeeded) +
      f (.itemsProcessed .failed)
  asked : requestsTotal f settings.llmModel + u.asked settings.retryMaxAttempts ≤
    v.asked settings.retryMaxAttempts
  claimed : f .chunksClaimed = 0

section row
variable {τ : RowTask} {latencyMs : Int} {act : RowAct} {v : Stage} {es : List Effect}

theorem counts_step (hpos : 0 < τ.settings.retryMaxAttempts)
    (hin : τ.stage.inRange τ.settings.retryMaxAttempts)
    (hs : τ.step latencyMs act = some (v, es)) :
    v.inRange τ.settings.retryMaxAttempts ∧
      Counts τ.settings (fun c => (τ.samples latencyMs act).count c) τ.stage v := by
  cases act with
  | enter =>
    cases hst : τ.stage <;> simp only [RowTask.step, hst] at hs <;> cases hs
    simp only [RowTask.samples, nextAttempt, if_pos hpos]
    exact ⟨hpos, by constructor <;> simp [processedSample, requestsTotal, Stage.over, Stage.asked]⟩
  | wake =>
    cases hst : τ.stage <;> simp only [RowTask.step, hst] at hs <;> cases hs
    rw [hst] at hin
    have hlt : _ < τ.settings.retryMaxAttempts := hin
    simp only [RowTask.samples, hst, nextAttempt, if_pos hlt]
    exact ⟨hlt, by constructor <;> simp [processedSample, requestsTotal, Stage.over, Stage.asked]⟩
  | raise =>
    -- a coroutine that is interrupted counts nothing
    have hasked : τ.stage.asked τ.settings.retryMaxAttempts ≤ v.asked τ.settings.retryMaxAttempts ∧
        τ.stage.over true = v.over true ∧ τ.stage.over false = v.over false ∧
        v.inRange τ.settings.retryMaxAttempts := by
      cases hst : τ.stage <;> simp only [RowTask.step, hst] at hs <;> cases hs <;>
        rw [hst] at hin <;> refine ⟨?_, rfl, rfl, trivial⟩ <;>
        simp only [Stage.asked, Stage.inRange] at hin ⊢ <;> omega
    obtain ⟨hle, hok, hno, hv⟩ := hasked
    refine ⟨hv, ?_⟩
    constructor <;> simp [RowTask.samples, requestsTotal, hok, hno, hle]
  | answer o =>
    cases hst : τ.stage <;> simp only [RowTask.step, hst] at hs <;> cases hs
    rename_i st
    rw [hst] at hin
    have hlt : st.attempt < τ.settings.retryMaxAttempts := hin
    simp only [RowTask.samples, hst]
    cases o with
    | success text =>
      refine ⟨trivial, ?_⟩
      constructor
      case asked =>
        simp [answered, outcomeLabel, processedSample, requestsTotal, Stage.asked]
        omega
      all_goals simp [answered, outcomeLabel, processedSample, requestsTotal, Stage.over]
    | permanent msg | unexpected msg =>
      refine ⟨trivial, ?_⟩
      constructor
      case asked =>
        simp [answered, outcomeLabel, processedSample, requestsTotal, Stage.asked]
        omega
      all_goals simp [answered, outcomeLabel, processedSample, requestsTotal, Stage.over]
    | retryable msg =>
      by_cases hmore : st.attempt < τ.settings.retryMaxAttempts - 1
      · simp only [answered, if_pos hmore]
        refine ⟨show st.attempt + 1 < _ by omega, ?_⟩
        constructor
        case asked =>
          simp [outcomeLabel, processedSample, requestsTotal, Stage.asked]
          omega
        all_goals simp [outcomeLabel, processedSample, requestsTotal, Stage.over]
      · -- the last attempt: the loop ends
        have hlast : ¬ st.attempt + 1 < τ.settings.retryMaxAttempts := by omega
        simp only [answered, if_neg hmore, nextAttempt, if_neg hlast]
        refine ⟨trivial, ?_⟩
        constructor
        case asked =>
          simp [outcomeLabel, processedSample, requestsTotal, Stage.asked]
          omega
        all_goals simp [outcomeLabel, processedSample, requestsTotal, Stage.over]

/-- Only the end of a call counts a request. -/
theorem requests_step (hs : τ.step latencyMs act = some (v, es)) (model : String) :
    requestsTotal (fun c => (τ.samples latencyMs act).count c) model ≤ τ.stage.inCall.toNat := by
  have hproc : ∀ (u : Stage) (outcome : String),
      (processedSample u).count (.inferenceRequests model outcome) = 0 := by
    intro u outcome
    cases u with
    | returned text => cases text <;> rfl
    | waiting | calling | sleeping | raised | cancelled => rfl
  cases act with
  | enter => simp [RowTask.samples, requestsTotal, hproc]
  | raise => simp [RowTask.samples, requestsTotal]
  | wake =>
    cases hst : τ.stage <;> simp only [RowTask.step, hst] at hs <;> cases hs
    simp [RowTask.samples, hst, requestsTotal, hproc]
  | answer o =>
    cases hst : τ.stage <;> simp only [RowTask.step, hst] at hs <;> cases hs
    by_cases hm : τ.settings.llmModel = model
    · cases o with
      | success | permanent | unexpected =>
        simp [RowTask.samples, hst, requestsTotal, hproc, outcomeLabel, hm, Stage.inCall]
      | retryable msg =>
        simp only [RowTask.samples, hst]
        split <;> simp [requestsTotal, hproc, outcomeLabel, hm, Stage.inCall]
    · cases o with
      | success | permanent | unexpected =>
        simp [RowTask.samples, hst, requestsTotal, hproc, hm]
      | retryable msg =>
        simp only [RowTask.samples, hst]
        split <;> simp [requestsTotal, hproc, hm]

/-- A call that begins is one more of those that the attempts allow. -/
theorem begun_step (hpos : 0 < τ.settings.retryMaxAttempts)
    (hin : τ.stage.inRange τ.settings.retryMaxAttempts)
    (hs : τ.step latencyMs act = some (v, es)) :
    τ.stage.begun τ.settings.retryMaxAttempts + v.inCall.toNat ≤
      v.begun τ.settings.retryMaxAttempts := by
  cases act with
  | enter =>
    cases hst : τ.stage <;> simp only [RowTask.step, hst] at hs <;> cases hs
    simp only [nextAttempt, if_pos hpos]
    exact Nat.le_refl 1
  | wake =>
    cases hst : τ.stage <;> simp only [RowTask.step, hst] at hs <;> cases hs
    rw [hst] at hin
    have hlt : _ < τ.settings.retryMaxAttempts := hin
    simp only [nextAttempt, if_pos hlt]
    exact Nat.le_refl _
  | raise =>
    cases hst : τ.stage <;> simp only [RowTask.step, hst] at hs <;> cases hs <;>
      rw [hst] at hin <;>
      simp only [Stage.begun, Stage.inCall, Stage.inRange, Bool.toNat_false] at hin ⊢ <;> omega
  | answer o =>
    cases hst : τ.stage <;> simp only [RowTask.step, hst] at hs <;> cases hs
    rename_i st
    rw [hst] at hin
    have hlt : st.attempt < τ.settings.retryMaxAttempts := hin
    cases o with
    | success | permanent | unexpected => exact hlt
    | retryable msg =>
      by_cases hmore : st.attempt < τ.settings.retryMaxAttempts - 1
      · simp only [answered, if_pos hmore]
        exact Nat.le_refl _
      · have hlast : ¬ st.attempt + 1 < τ.settings.retryMaxAttempts := by omega
        simp only [answered, if_neg hmore, nextAttempt, if_neg hlast]
        exact hlt

theorem begun_le {u : Stage} {maxAttempts : Nat} (h : u.inRange maxAttempts) :
    u.begun maxAttempts ≤ maxAttempts := by
  cases u <;> simp only [Stage.begun, Stage.inRange] at h ⊢ <;> omega

end row

/-! ## The process -/

/-- All chunks of the process are processed under its settings. -/
def Configured (settings : Settings) (_ : Proc) : ProcAct → Prop
  | .gather _ settings' _ => settings' = settings
  | .row .. => True

structure Tallied (settings : Settings) (tr : List (Trans Proc ProcAct)) (p : Proc) : Prop where
  tasks : ∀ τ ∈ p.tasks, τ.settings = settings ∧ τ.stage.inRange settings.retryMaxAttempts
  succeeded : metric tr (.itemsProcessed .succeeded) = p.tasks.countP (·.stage.over true)
  failed : metric tr (.itemsProcessed .failed) = p.tasks.countP (·.stage.over false)
  success : metric tr (.inferenceRequests settings.llmModel "success") =
    metric tr (.itemsProcessed .succeeded)
  latency : metric tr (.inferenceLatency settings.llmModel) =
    metric tr (.itemsProcessed .succeeded)
  requests : requestsTotal (metric tr) settings.llmModel =
    metric tr (.inferenceRetries settings.llmModel) + metric tr (.itemsProcessed .succeeded) +
      metric tr (.itemsProcessed .failed)
  asked : requestsTotal (metric tr) settings.llmModel ≤
    (p.tasks.map fun τ => τ.stage.asked settings.retryMaxAttempts).sum
  claimed : metric tr .chunksClaimed ≤ p.tasks.length

section run
variable {settings : Settings} {tr : List (Trans Proc ProcAct)} {p q : Proc}

theorem metric_snoc (t : Trans Proc ProcAct) (c : Counter) :
    metric (tr ++ [t]) c = metric tr c + (samples t).count c := by
  simp [metric]

theorem tallied_gather (h : Tallied settings tr p) (cid : ChunkId) (chunk : List ClaimedItem) :
    Tallied settings (tr ++ [⟨p, .gather cid settings chunk, p.gather cid settings chunk⟩])
      (p.gather cid settings chunk) := by
  have hkeep : ∀ c, c ≠ .chunksClaimed →
      metric (tr ++ [⟨p, .gather cid settings chunk, p.gather cid settings chunk⟩]) c =
        metric tr c := by
    intro c hc
    rw [metric_snoc]
    simp only [samples]
    split
    · rfl
    · simp [hc.symm]
  -- the new coroutines have done nothing
  have hnew : ∀ b, (p.gather cid settings chunk).tasks.countP (·.stage.over b) =
      p.tasks.countP (·.stage.over b) := by
    intro b
    rw [Proc.gather, List.countP_append, List.countP_map, Nat.add_eq_left]
    exact List.countP_eq_zero.mpr fun c _ hc => by cases hc
  have hasked : ((p.gather cid settings chunk).tasks.map fun τ =>
      τ.stage.asked settings.retryMaxAttempts).sum =
      (p.tasks.map fun τ => τ.stage.asked settings.retryMaxAttempts).sum := by
    rw [Proc.gather, List.map_append, List.sum_append, List.map_map, Nat.add_eq_left]
    exact List.sum_eq_zero fun n hn => by
      obtain ⟨c, -, rfl⟩ := List.mem_map.mp hn
      rfl
  have htotal : requestsTotal (metric (tr ++ [⟨p, .gather cid settings chunk,
      p.gather cid settings chunk⟩])) settings.llmModel =
        requestsTotal (metric tr) settings.llmModel := by
    simp [requestsTotal, hkeep]
  refine ⟨fun τ hτ => ?_, ?_, ?_, ?_, ?_, ?_, ?_, ?_⟩
  · rcases List.mem_append.mp hτ with hτ | hτ
    · exact h.tasks τ hτ
    · obtain ⟨c, -, rfl⟩ := List.mem_map.mp hτ
      exact ⟨rfl, trivial⟩
  · rw [hkeep _ (by simp), hnew, h.succeeded]
  · rw [hkeep _ (by simp), hnew, h.failed]
  · rw [hkeep _ (by simp), hkeep _ (by simp), h.success]
  · rw [hkeep _ (by simp), hkeep _ (by simp), h.latency]
  · rw [htotal, hkeep _ (by simp), hkeep _ (by simp), hkeep _ (by simp), h.requests]
  · rw [htotal, hasked]
    exact h.asked
  · have hc := h.claimed
    rw [metric_snoc]
    simp only [samples, Proc.gather, List.length_append, List.length_map]
    split
    · rename_i he
      simpa [he] using hc
    · rename_i hne
      have := List.length_pos_iff.mpr hne
      simp only [List.count_singleton_self]
      omega

theorem tallied_row (hpos : 0 < settings.retryMaxAttempts) (h : Tallied settings tr p) {i : Nat}
    {act : RowAct} {latencyMs : Int} {τ : RowTask} {v : Stage} {es : List Effect}
    (hτ : p.tasks[i]? = some τ) (hs : τ.step latencyMs act = some (v, es))
    (hq : q.tasks = p.tasks.set i { τ with stage := v }) :
    Tallied settings (tr ++ [⟨p, .row i act latencyMs, q⟩]) q := by
  obtain ⟨rfl, hin⟩ := h.tasks τ (List.mem_of_getElem? hτ)
  obtain ⟨hin', hc⟩ := counts_step hpos hin hs
  have hadd : ∀ c, metric (tr ++ [⟨p, .row i act latencyMs, q⟩]) c =
      metric tr c + (τ.samples latencyMs act).count c := by
    intro c
    rw [metric_snoc]
    simp only [samples, hτ, Option.elim_some]
  have htotal : requestsTotal (metric (tr ++ [⟨p, .row i act latencyMs, q⟩])) τ.settings.llmModel =
      requestsTotal (metric tr) τ.settings.llmModel +
        requestsTotal (fun c => (τ.samples latencyMs act).count c) τ.settings.llmModel := by
    simp only [requestsTotal, hadd]
    omega
  have hover : ∀ b, q.tasks.countP (·.stage.over b) + (τ.stage.over b).toNat =
      p.tasks.countP (·.stage.over b) + (v.over b).toNat := by
    intro b
    rw [hq]
    exact countP_set_toNat hτ
  have hasked : (q.tasks.map fun τ' => τ'.stage.asked τ.settings.retryMaxAttempts).sum +
      τ.stage.asked τ.settings.retryMaxAttempts =
      (p.tasks.map fun τ' => τ'.stage.asked τ.settings.retryMaxAttempts).sum +
        v.asked τ.settings.retryMaxAttempts := by
    rw [hq]
    exact sum_map_set (f := fun τ' : RowTask => τ'.stage.asked τ.settings.retryMaxAttempts) hτ
  obtain ⟨h1, h2, h3, h4, h5, h6, h7⟩ := hc
  obtain ⟨k0, k1, k2, k3, k4, k5, k6, k7⟩ := h
  have htrue := hover true
  have hfalse := hover false
  refine ⟨fun τ' hτ' => ?_, ?_, ?_, ?_, ?_, ?_, ?_, ?_⟩
  · rw [hq] at hτ'
    rcases List.mem_or_eq_of_mem_set hτ' with hτ' | rfl
    · exact k0 τ' hτ'
    · exact ⟨rfl, hin'⟩
  · rw [hadd]; omega
  · rw [hadd]; omega
  · rw [hadd, hadd]; omega
  · rw [hadd, hadd]; omega
  · rw [htotal, hadd, hadd, hadd]; omega
  · rw [htotal]; omega
  · rw [hadd, hq, List.length_set]; omega

theorem tallied_run {maxConcurrency inflight : Int} (hpos : 0 < settings.retryMaxAttempts)
    (h : ((process maxConcurrency inflight).restrict (Configured settings)).Run tr p) :
    Tallied settings tr p := by
  refine h.induct (P := Tallied settings) ?_ fun tr p l q _ ih hst => ?_
  · rintro _ ⟨n, -, rfl⟩
    refine ⟨fun τ hτ => ?_, rfl, rfl, rfl, rfl, rfl, Nat.le_refl 0, Nat.le_refl 0⟩
    cases hτ
  · obtain ⟨hst, hc⟩ := hst
    cases procMove_of_step hst with
    | gather cid settings' chunk =>
      obtain rfl : settings' = settings := hc
      exact tallied_gather ih cid chunk
    | row hτ hs hq => exact tallied_row hpos ih hτ hs rfl

/-! ## One row -/

/-- Coroutine `i` counts a request for each call that it began, but for the one
in flight, and has begun no more calls than its attempts allow. -/
structure RowTallied (settings : Settings) (i : Nat) (tr : List (Trans Proc ProcAct))
    (p : Proc) : Prop where
  requests : requestsTotal (rowMetric i tr) settings.llmModel +
    (p.tasks[i]?.any (·.stage.inCall)).toNat ≤ rowCalls i tr
  begun : rowCalls i tr ≤ p.tasks[i]?.elim 0 (·.stage.begun settings.retryMaxAttempts)

theorem rowCalls_snoc (i : Nat) (t : Trans Proc ProcAct) :
    rowCalls i (tr ++ [t]) = rowCalls i tr + (begins i t).toNat := by
  unfold rowCalls
  rw [List.countP_append, List.countP_singleton]
  cases begins i t <;> rfl

theorem rowMetric_snoc (i : Nat) (t : Trans Proc ProcAct) (c : Counter) :
    rowMetric i (tr ++ [t]) c = rowMetric i tr c + (rowSamples i t).count c := by
  simp [rowMetric]

/-- A step of something else: the coroutine stays, or is new. -/
theorem rowTallied_other {i : Nat} {t : Trans Proc ProcAct} (h : RowTallied settings i tr p)
    (hs : rowSamples i t = []) (hb : begins i t = false)
    (hq : q.tasks[i]? = p.tasks[i]? ∨
      p.tasks[i]? = none ∧ ∀ τ, q.tasks[i]? = some τ → τ.stage = .waiting) :
    RowTallied settings i (tr ++ [t]) q := by
  have htotal : requestsTotal (rowMetric i (tr ++ [t])) settings.llmModel =
      requestsTotal (rowMetric i tr) settings.llmModel := by
    simp [requestsTotal, rowMetric_snoc, hs]
  obtain ⟨h1, h2⟩ := h
  constructor
  all_goals rw [rowCalls_snoc, hb, Bool.toNat_false, Nat.add_zero]
  · rw [htotal]
    rcases hq with hq | ⟨hp, hq⟩
    · rw [hq]
      exact h1
    · rw [hp] at h1
      cases hτ : q.tasks[i]? with
      | none => exact h1
      | some τ =>
        rw [Option.any_some, hq τ hτ]
        exact h1
  · rcases hq with hq | ⟨hp, hq⟩
    · rw [hq]
      exact h2
    · rw [hp] at h2
      exact Nat.le_trans h2 (Nat.zero_le _)

/-- A step of the coroutine. -/
theorem rowTallied_row {i : Nat} {act : RowAct} {latencyMs : Int} {τ : RowTask} {v : Stage}
    {es : List Effect} (hpos : 0 < τ.settings.retryMaxAttempts)
    (h : RowTallied τ.settings i tr p) (hin : τ.stage.inRange τ.settings.retryMaxAttempts)
    (hτ : p.tasks[i]? = some τ) (hs : τ.step latencyMs act = some (v, es))
    (hq : q.tasks = p.tasks.set i { τ with stage := v }) :
    RowTallied τ.settings i (tr ++ [⟨p, .row i act latencyMs, q⟩]) q := by
  have hnew : q.tasks[i]? = some { τ with stage := v } := by
    rw [hq]
    exact List.getElem?_set_self (List.getElem?_eq_some_iff.mp hτ).1
  have hb : begins i ⟨p, .row i act latencyMs, q⟩ = v.inCall := by
    simp only [begins, hnew, Option.any_some, beq_self_eq_true, Bool.true_and]
  have htotal : requestsTotal (rowMetric i (tr ++ [⟨p, .row i act latencyMs, q⟩]))
        τ.settings.llmModel = requestsTotal (rowMetric i tr) τ.settings.llmModel +
      requestsTotal (fun c => (τ.samples latencyMs act).count c) τ.settings.llmModel := by
    simp only [requestsTotal, rowMetric_snoc, rowSamples, if_true, samples, hτ, Option.elim_some]
    omega
  have hreq := requests_step hs τ.settings.llmModel
  have hbeg := begun_step hpos hin hs
  obtain ⟨h1, h2⟩ := h
  simp only [hτ, Option.any_some, Option.elim_some] at h1 h2
  constructor
  · rw [htotal, rowCalls_snoc, hb, hnew, Option.any_some]
    show _ + v.inCall.toNat ≤ _
    omega
  · rw [rowCalls_snoc, hb, hnew, Option.elim_some]
    show _ ≤ v.begun _
    omega

theorem rowTallied_run {maxConcurrency inflight : Int} (hpos : 0 < settings.retryMaxAttempts)
    (h : ((process maxConcurrency inflight).restrict (Configured settings)).Run tr p) (i : Nat) :
    RowTallied settings i tr p := by
  refine h.induct (P := RowTallied settings i) ?_ fun tr p l q hr ih hst => ?_
  · intro p hp
    obtain ⟨n, -, rfl⟩ := hp
    exact ⟨Nat.le_refl 0, Nat.le_refl 0⟩
  · obtain ⟨hstep, -⟩ := hst
    cases procMove_of_step hstep with
    | gather cid settings' chunk =>
      refine rowTallied_other ih rfl rfl ?_
      by_cases hi : i < p.tasks.length
      · exact .inl (List.getElem?_append_left hi)
      · refine .inr ⟨List.getElem?_eq_none (Nat.le_of_not_lt hi), fun τ hτ => ?_⟩
        rw [Proc.gather, List.getElem?_append_right (Nat.le_of_not_lt hi)] at hτ
        obtain ⟨c, -, rfl⟩ := List.mem_map.mp (List.mem_of_getElem? hτ)
        rfl
    | @row j act lat τ v es q₀ hτ hs hq =>
      by_cases hj : j = i
      · subst hj
        obtain ⟨rfl, hin⟩ := (tallied_run hpos hr).tasks τ (List.mem_of_getElem? hτ)
        exact rowTallied_row hpos ih hin hτ hs rfl
      · refine rowTallied_other ih (if_neg hj) ?_ (.inl (List.getElem?_set_ne hj))
        simp [begins, hj]

/-! ## Headline -/

theorem records_count (p : Proc) : p.records.countP (fun res => res.status = .succeeded) =
      p.tasks.countP (·.stage.over true) ∧
    p.records.countP (fun res => res.status = .failed) = p.tasks.countP (·.stage.over false) := by
  simp only [Proc.records, List.countP_filterMap]
  constructor <;>
  · refine List.countP_congr fun τ _ => ?_
    cases hs : τ.stage with
    | returned text => cases text <;> simp [RowTask.result, Stage.over, hs]
    | _ => simp [RowTask.result, Stage.over, hs]

/-- Every record says how its row ended. -/
theorem records_length (p : Proc) : p.records.length =
    p.records.countP (fun res => res.status = .succeeded) +
      p.records.countP fun res => res.status = .failed := by
  rw [List.length_eq_countP_add_countP fun res : ResultRecord => decide (res.status = .succeeded)]
  refine congrArg _ (List.countP_congr fun res hres => ?_)
  obtain ⟨τ, -, hr⟩ := List.mem_filterMap.mp hres
  have ht := (returned_of_result hr).2.2
  cases hs : res.status with
  | succeeded | failed => simp
  | pending | claimed =>
    rw [hs] at ht
    cases ht

theorem asked_le (tasks : List RowTask)
    (h : ∀ τ ∈ tasks, τ.stage.inRange settings.retryMaxAttempts) :
    (tasks.map fun τ => τ.stage.asked settings.retryMaxAttempts).sum ≤
      settings.retryMaxAttempts * tasks.length := by
  rw [Nat.mul_comm, ← List.length_map (fun τ : RowTask => τ.stage.asked settings.retryMaxAttempts)]
  refine List.sum_le_card_nsmul _ _ fun n hn => ?_
  obtain ⟨τ, hτ, rfl⟩ := List.mem_map.mp hn
  have hin := h τ hτ
  cases hs : τ.stage <;> rw [hs] at hin <;> simp only [Stage.asked, Stage.inRange] at hin ⊢ <;> omega

/-- **The metrics add up.** At every await of every interleaving of the row
coroutines of a process, whatever is cancelled: the processed rows of a status
are the records with that status that were returned, each success counts as one
request, one observed latency and one row, and every request has led to a retry
or to the end of a row. Each row counts at most the calls that it began, and
begins at most `retry_max_attempts`, those that a cancellation cuts off
included. -/
theorem metrics_add_up {maxConcurrency inflight : Int} (hpos : 1 ≤ settings.retryMaxAttempts)
    (h : ((process maxConcurrency inflight).restrict (Configured settings)).Run tr p) :
    let f := metric tr
    let model := settings.llmModel
    f (.itemsProcessed .succeeded) = p.records.countP (fun res => res.status = .succeeded) ∧
    f (.itemsProcessed .failed) = p.records.countP (fun res => res.status = .failed) ∧
    f (.inferenceRequests model "success") = f (.itemsProcessed .succeeded) ∧
    f (.inferenceLatency model) = f (.itemsProcessed .succeeded) ∧
    requestsTotal f model = f (.inferenceRetries model) + p.records.length ∧
    requestsTotal f model ≤ settings.retryMaxAttempts * p.tasks.length ∧
    f .chunksClaimed ≤ p.tasks.length ∧
    ∀ i, requestsTotal (rowMetric i tr) model ≤ rowCalls i tr ∧
      rowCalls i tr ≤ settings.retryMaxAttempts := by
  have ht := tallied_run hpos h
  obtain ⟨hs, hf⟩ := records_count p
  have hlen : p.records.length = metric tr (.itemsProcessed .succeeded) +
      metric tr (.itemsProcessed .failed) := by
    rw [ht.succeeded, ht.failed, ← hs, ← hf, records_length]
  refine ⟨ht.succeeded.trans hs.symm, ht.failed.trans hf.symm, ht.success, ht.latency,
    by rw [ht.requests, hlen, Nat.add_assoc],
    ht.asked.trans (asked_le _ fun τ hτ => (ht.tasks τ hτ).2), ht.claimed, fun i => ?_⟩
  obtain ⟨hreq, hbeg⟩ := rowTallied_run hpos h i
  refine ⟨Nat.le_trans (Nat.le_add_right _ _) hreq, Nat.le_trans hbeg ?_⟩
  cases hτ : p.tasks[i]? with
  | none => exact Nat.zero_le _
  | some τ => exact begun_le (ht.tasks τ (List.mem_of_getElem? hτ)).2

end run

/-! ## Non-vacuity -/

/-- One row is retried and succeeds, the other one is cancelled meanwhile. -/
def retriedRun (cid : ChunkId) : List ProcAct :=
  [.gather cid {} [⟨1, "a", "hi", 1⟩, ⟨2, "b", "ho", 1⟩], .row 0 .enter 0, .row 1 .enter 0,
    .row 0 (.answer (.retryable "busy")) 0, .row 0 .wake 0, .row 1 .raise 0,
    .row 0 (.answer (.success "ok")) 3]

theorem metrics_add_up_retried : ∃ tr p,
    ((process 2 0).restrict (Configured {})).Run tr p ∧ p.tasks.length = 2 ∧
      requestsTotal (metric tr) ({} : Settings).llmModel = 2 ∧
      metric tr (.itemsProcessed .succeeded) = 1 := by
  obtain ⟨⟨tr, p⟩, he, hlen, hrec, hretry⟩ : ∃ r,
      LTS.exec Proc.step ⟨2, 0, []⟩ (retriedRun ⟨"c1", by simp⟩) = some r ∧
      r.2.tasks.length = 2 ∧ r.2.records.map (·.status) = [.succeeded] ∧
      metric r.1 (.inferenceRetries ({} : Settings).llmModel) = 1 :=
    ⟨_, rfl, rfl, rfl, by decide⟩
  have hr : ((process 2 0).restrict (Configured {})).Run tr p := by
    refine LTS.restrict_of_exec ⟨2, rfl, rfl⟩ he fun l hl u => ?_
    simp only [retriedRun, List.mem_cons, List.not_mem_nil, or_false] at hl
    rcases hl with rfl | rfl | rfl | rfl | rfl | rfl | rfl <;> first | rfl | trivial
  have hpos : 1 ≤ ({} : Settings).retryMaxAttempts := by decide
  obtain ⟨hs, -, -, -, hreq, -⟩ := metrics_add_up hpos hr
  refine ⟨tr, p, hr, hlen, ?_, ?_⟩
  · rw [hreq, hretry, ← List.length_map (fun res : ResultRecord => res.status), hrec]
    rfl
  · have hcount : (p.records.map (·.status)).countP (fun st => st = .succeeded) = 1 := by
      rw [hrec]
      rfl
    rw [hs]
    rwa [List.countP_map] at hcount

end BatchSystem.Engine
