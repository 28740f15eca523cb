import Mathlib.Data.List.Infix
import Mathlib.Algebra.Order.BigOperators.Group.List
import BatchSystem.Engine.Clients

/-!
# `MockInferenceClient`

The client of the tests: it refuses the prompts that contain `fail_substring`,
and lets the first `transient_fail` calls with any other prompt fail. It counts
by prompt, so rows with one prompt share these failures.

* `seen_transients`: the client's counter is the number of transient failures in
  the history, those of cancelled rows included.
* `mock_budget`: in a process with this client, whatever its coroutines do, the
  calls with one prompt fail at most `transient_fail` times in all.
* `mock_run`: if `transient_fail` is below the attempts of a row, a run fails the
  rows with a refused prompt, and no others.
-/
namespace BatchSystem.Inference

open BatchSystem.Core Domain Queue Storage Engine

/-! ## Clients of `InferenceResponse`s -/

/-- mirrors app/domain/results.py:17-22 -/
structure InferenceResponse where
  text : String
  promptTokens : Int := 0
  completionTokens : Int := 0
  latencyMs : Int := 0
  deriving DecidableEq, Repr

/-- What `complete` raises. `other`: an exception of neither class.
mirrors app/core/exceptions.py:21-26 -/
inductive InferenceError where
  | retryable (msg : String)
  | permanent (msg : String)
  | other (msg : String)
  deriving DecidableEq, Repr

/-- The `except` clause that takes the exception. mirrors app/engine/worker.py:138,153,158 -/
def outcomeOf : Except InferenceError InferenceResponse → Outcome
  | .ok response => .success response.text
  | .error (.retryable msg) => .retryable msg
  | .error (.permanent msg) => .permanent msg
  | .error (.other msg) => .unexpected msg

/-! ## The mock -/

/-- mirrors app/infrastructure/inference/mock_client.py:16-26 -/
structure MockInferenceClient where
  failSubstring : Option String := none
  transientFail : Int := 0
  latencyMs : Int := 0

/-- `_seen`: how many calls with a prompt failed. -/
abbrev Seen := String → Nat

namespace MockInferenceClient
variable (m : MockInferenceClient)

/-- `self.fail_substring and self.fail_substring in prompt`.
mirrors app/infrastructure/inference/mock_client.py:32 -/
def refuses (prompt : String) : Bool :=
  m.failSubstring.any fun s => s != "" && decide (s.toList <:+: prompt.toList)

/-- mirrors app/infrastructure/inference/mock_client.py:28-43 -/
def complete (seen : Seen) (request : InferenceRequest) :
    Except InferenceError InferenceResponse × Seen :=
  let prompt := request.prompt
  if m.refuses prompt then (.error (.permanent "mock permanent failure"), seen)
  else if seen prompt < m.transientFail then
    (.error (.retryable "mock transient failure"),
      Function.update seen prompt (seen prompt + 1))
  else
    (.ok { text := "[mock] " ++ prompt, promptTokens := max 1 (prompt.length / 4),
           completionTokens := 5, latencyMs := m.latencyMs }, seen)

def client : Client Seen where
  init _ := 0
  complete seen request := ((outcomeOf (m.complete seen request).1), (m.complete seen request).2)

end MockInferenceClient

/-! ## What it does to a coroutine -/

section mock
variable (m : MockInferenceClient)

/-- Where a coroutine stands after the answers of the mock. -/
def MockStage (τ : RowTask) : Stage → Prop
  | .waiting | .raised | .cancelled => True
  | .calling st => st.attempt < τ.settings.retryMaxAttempts ∧
      (0 < st.attempt → m.refuses τ.item.prompt = false)
  | .sleeping st => st.attempt < τ.settings.retryMaxAttempts ∧ m.refuses τ.item.prompt = false ∧
      st.lastError = some "mock transient failure"
  | .returned (some text) _ _ => m.refuses τ.item.prompt = false ∧ text = "[mock] " ++ τ.item.prompt
  | .returned none st _ => 0 < τ.settings.retryMaxAttempts →
      (m.refuses τ.item.prompt = true → st.attempt = 0 ∧
        st.lastError = some "mock permanent failure") ∧
      (m.refuses τ.item.prompt = false → st.attempt + 1 = τ.settings.retryMaxAttempts ∧
        st.lastError = some "mock transient failure")

/-- The transient failures that a coroutine got. -/
def failures (τ : RowTask) : Stage → Nat
  | .waiting | .raised | .cancelled => 0
  | .calling st | .returned (some _) st _ => st.attempt
  | .sleeping st => st.attempt + 1
  | .returned none _ _ =>
    if m.refuses τ.item.prompt then 0 else τ.settings.retryMaxAttempts

theorem call_cases (seen : Seen) (τ : RowTask) :
    (m.refuses τ.item.prompt = true ∧
      m.client.call seen τ = (.permanent "mock permanent failure", seen)) ∨
    (m.refuses τ.item.prompt = false ∧ seen τ.item.prompt < m.transientFail ∧
      m.client.call seen τ = (.retryable "mock transient failure",
        Function.update seen τ.item.prompt (seen τ.item.prompt + 1))) ∨
    (m.refuses τ.item.prompt = false ∧
      m.client.call seen τ = (.success ("[mock] " ++ τ.item.prompt), seen)) := by
  simp only [Client.call, MockInferenceClient.client, MockInferenceClient.complete, requestFor]
  by_cases hr : m.refuses τ.item.prompt = true
  · exact .inl ⟨hr, by simp [hr, outcomeOf]⟩
  · have hf := Bool.eq_false_of_not_eq_true hr
    by_cases hlt : (seen τ.item.prompt : Int) < m.transientFail
    · exact .inr (.inl ⟨hf, hlt, by simp [hf, hlt, outcomeOf]⟩)
    · exact .inr (.inr ⟨hf, by simp [hf, hlt, outcomeOf]⟩)

/-- The next attempt after a transient failure, or none at all. -/
theorem mock_nextAttempt (τ : RowTask) (latencyMs : Int) {n : Nat} {st : RowState}
    (hn : n ≤ τ.settings.retryMaxAttempts) (h : 0 < n → m.refuses τ.item.prompt = false ∧
      st.attempt + 1 = n ∧ st.lastError = some "mock transient failure") :
    MockStage m τ (nextAttempt τ.settings τ.item latencyMs n st) ∧
      failures m τ (nextAttempt τ.settings τ.item latencyMs n st) ≤ n := by
  unfold nextAttempt
  split
  · rename_i hlt
    exact ⟨⟨hlt, fun h0 => (h h0).1⟩, Nat.le_refl n⟩
  · rename_i hge
    obtain rfl : n = τ.settings.retryMaxAttempts := Nat.le_antisymm hn (Nat.le_of_not_lt hge)
    refine ⟨fun h0 => ?_, ?_⟩
    · obtain ⟨h1, h2, h3⟩ := h h0
      exact ⟨fun hr => (by rw [h1] at hr; cases hr), fun _ => ⟨h2, h3⟩⟩
    · show (if _ then 0 else _) ≤ _
      split
      · exact Nat.zero_le _
      · exact Nat.le_refl _

/-- A failure more of a coroutine is one that the client counts. -/
structure MockStep (τ : RowTask) (v : Stage) (seen seen' : Seen) : Prop where
  stage : MockStage m τ v
  counted : failures m τ v + seen τ.item.prompt ≤ failures m τ τ.stage + seen' τ.item.prompt
  others : ∀ p, p ≠ τ.item.prompt → seen' p = seen p
  budget : ∀ p, seen p ≤ m.transientFail.toNat → seen' p ≤ m.transientFail.toNat

theorem MockStep.quiet {τ : RowTask} {v : Stage} {seen : Seen} (h : MockStage m τ v)
    (hle : failures m τ v ≤ failures m τ τ.stage) : MockStep m τ v seen seen :=
  ⟨h, Nat.add_le_add_right hle _, fun _ _ => rfl, fun _ h => h⟩

theorem mock_answer {seen : Seen} {τ : RowTask} {latencyMs : Int} {st : RowState}
    (hst : τ.stage = .calling st) (hτ : MockStage m τ τ.stage) :
    MockStep m τ (answered τ.settings τ.item latencyMs st (m.client.call seen τ).1) seen
      (m.client.call seen τ).2 := by
  rw [hst] at hτ
  obtain ⟨hlt, hpos⟩ := hτ
  rcases call_cases m seen τ with ⟨hr, hc⟩ | ⟨hr, hbudget, hc⟩ | ⟨hr, hc⟩
  · -- a refused prompt is refused at once
    have h0 : st.attempt = 0 := by
      by_contra hne
      rw [hpos (Nat.pos_of_ne_zero hne)] at hr
      cases hr
    rw [hc]
    refine .quiet m (fun _ => ⟨fun _ => ⟨h0, rfl⟩, fun hf => ?_⟩) ?_
    · rw [hr] at hf
      cases hf
    · show (if _ then 0 else _) ≤ _
      rw [if_pos hr]
      exact Nat.zero_le _
  · rw [hc]
    have hv : MockStage m τ (answered τ.settings τ.item latencyMs st
          (.retryable "mock transient failure")) ∧
        failures m τ (answered τ.settings τ.item latencyMs st
          (.retryable "mock transient failure")) ≤ st.attempt + 1 := by
      simp only [answered]
      split
      · exact ⟨⟨hlt, hr, rfl⟩, Nat.le_refl _⟩
      · exact mock_nextAttempt m τ latencyMs hlt fun _ => ⟨hr, rfl, rfl⟩
    dsimp only
    refine ⟨hv.1, ?_, fun p hp => Function.update_of_ne hp _ _, fun p hp => ?_⟩
    · rw [Function.update_self, hst]
      show _ ≤ st.attempt + _
      omega
    · by_cases he : p = τ.item.prompt
      · rw [he, Function.update_self]
        omega
      · rw [Function.update_of_ne he]
        exact hp
  · rw [hc]
    refine .quiet m ⟨hr, rfl⟩ ?_
    rw [hst]
    exact Nat.le_refl _

theorem mock_step {seen : Seen} {τ : RowTask} {latencyMs : Int} {act : RowAct} {v : Stage}
    {es : List Effect} (hτ : MockStage m τ τ.stage) (ha : m.client.allows seen τ act = true)
    (hs : τ.step latencyMs act = some (v, es)) :
    MockStep m τ v seen (m.client.after seen τ act) := by
  cases act with
  | enter =>
    cases hst : τ.stage <;> simp only [RowTask.step, hst] at hs <;> cases hs
    have h : MockStage m τ (nextAttempt τ.settings τ.item latencyMs 0 {}) ∧
        failures m τ (nextAttempt τ.settings τ.item latencyMs 0 {}) ≤ 0 :=
      mock_nextAttempt m τ latencyMs (Nat.zero_le _) fun h => absurd h (Nat.lt_irrefl 0)
    exact .quiet m h.1 (Nat.le_trans h.2 (Nat.zero_le _))
  | wake =>
    cases hst : τ.stage <;> simp only [RowTask.step, hst] at hs <;> cases hs
    rw [hst] at hτ
    obtain ⟨hlt, hr, he⟩ := hτ
    have h := mock_nextAttempt m τ latencyMs hlt fun _ => ⟨hr, rfl, he⟩
    refine .quiet m h.1 ?_
    rw [hst]
    exact h.2
  | raise =>
    cases hst : τ.stage <;> simp only [RowTask.step, hst] at hs <;> cases hs <;>
      exact .quiet m trivial (Nat.zero_le _)
  | answer o =>
    cases hst : τ.stage <;> simp only [RowTask.step, hst] at hs <;> cases hs
    obtain rfl : o = (m.client.call seen τ).1 := of_decide_eq_true ha
    exact mock_answer m hst hτ

/-! ## The process -/

/-- The transient failures of the rows with this prompt. -/
def spent (prompt : String) (tasks : List RowTask) : Nat :=
  (tasks.map fun τ => if τ.item.prompt = prompt then failures m τ τ.stage else 0).sum

structure MockBooks (s : Proc × Seen) : Prop where
  stage : ∀ τ ∈ s.1.tasks, MockStage m τ τ.stage
  spent : ∀ p, spent m p s.1.tasks ≤ s.2 p
  budget : ∀ p, s.2 p ≤ m.transientFail.toNat

variable {m}

theorem mockBooks_row {s : Proc × Seen} {q : Proc} {i : Nat} {τ : RowTask} {v : Stage}
    {seen' : Seen} (h : MockBooks m s) (hτ : s.1.tasks[i]? = some τ)
    (hs : MockStep m τ v s.2 seen') (hq : q.tasks = s.1.tasks.set i { τ with stage := v }) :
    MockBooks m (q, seen') := by
  refine ⟨fun τ' hτ' => ?_, fun p => ?_, fun p => hs.budget p (h.budget p)⟩
  · rw [show (q, seen').1.tasks = _ from hq] at hτ'
    rcases List.mem_or_eq_of_mem_set hτ' with hτ' | rfl
    · exact h.stage τ' hτ'
    · exact hs.stage
  · have hsum := sum_map_set (f := fun τ => if τ.item.prompt = p then failures m τ τ.stage else 0)
      (b := { τ with stage := v }) hτ
    have hp := h.spent p
    show Inference.spent m p q.tasks ≤ seen' p
    unfold Inference.spent at hp ⊢
    rw [hq]
    by_cases he : τ.item.prompt = p
    · have hc := hs.counted
      rw [he] at hc
      have hv : failures m { τ with stage := v } v = failures m τ v := rfl
      simp only [if_pos he, hv] at hsum
      omega
    · simp only [if_neg he] at hsum
      rw [hs.others p fun h => he h.symm]
      omega

theorem mockBooks_reachable {maxConcurrency inflight : Int} {s : Proc × Seen}
    (h : (m.client.process maxConcurrency inflight).Reachable s) : MockBooks m s := by
  refine h.induct (I := MockBooks m) (fun s hs => ?_) fun s l v _ ih hst => ?_
  · obtain ⟨p, seen⟩ := s
    obtain ⟨⟨n, -, rfl⟩, rfl⟩ := hs
    exact ⟨fun τ hτ => (by cases hτ), fun p => Nat.le_refl _, fun p => Nat.zero_le _⟩
  · cases l with
    | gather cid settings chunk =>
      cases hst
      refine ⟨fun τ hτ => ?_, fun p => ?_, ih.budget⟩
      · rcases List.mem_append.mp hτ with hτ | hτ
        · exact ih.stage τ hτ
        · obtain ⟨c, -, rfl⟩ := List.mem_map.mp hτ
          trivial
      · have hnew : Inference.spent m p (chunk.map fun item => ⟨cid, settings, item, .waiting⟩) = 0 := by
          unfold Inference.spent
          rw [List.map_map]
          exact List.sum_eq_zero fun n hn => by
            obtain ⟨c, -, rfl⟩ := List.mem_map.mp hn
            exact ite_self 0
        have := ih.spent p
        show Inference.spent m p (s.1.tasks ++ _) ≤ s.2 p
        unfold Inference.spent at this hnew ⊢
        rw [List.map_append, List.sum_append, hnew]
        exact this
    | row i act lat =>
      obtain ⟨τ, hτ, h⟩ := Option.bind_eq_some_iff.mp hst
      simp only [Option.ite_none_right_eq_some, Option.map_eq_some_iff] at h
      obtain ⟨ha, q, hq, rfl⟩ := h
      cases procMove_of_step hq with
      | row hτ' hs hq' =>
        obtain rfl := Option.some.inj (hτ'.symm.trans hτ)
        exact mockBooks_row ih hτ (mock_step m (ih.stage _ (List.mem_of_getElem? hτ)) ha hs) rfl

/-! ## Records -/

/-- The record of a row that the mock answered, up to the attempts that it took. -/
structure MockRecord (m : MockInferenceClient) (τ : RowTask) (res : ResultRecord) : Prop where
  refused : m.refuses τ.item.prompt = true → res.status = .failed ∧ res.attempts = 1 ∧
    res.response = none ∧ res.error = some "mock permanent failure"
  served : m.refuses τ.item.prompt = false →
    (res.status = .succeeded ∧ res.response = some ("[mock] " ++ τ.item.prompt) ∧
      res.error = none) ∨
    (res.status = .failed ∧ res.attempts = τ.settings.retryMaxAttempts ∧ res.response = none ∧
      res.error = some "mock transient failure")

theorem mock_record {τ : RowTask} {res : ResultRecord} (h : MockStage m τ τ.stage)
    (hr : τ.result = some res) (hpos : 0 < τ.settings.retryMaxAttempts) : MockRecord m τ res := by
  obtain ⟨⟨text, st, lat, hst⟩, -⟩ := returned_of_result hr
  rw [hst] at h
  simp only [RowTask.result, hst] at hr
  cases text with
  | some text =>
    cases hr
    obtain ⟨hf, ht⟩ := h
    refine ⟨fun hp => ?_, fun _ => .inl ⟨rfl, congrArg some ht, rfl⟩⟩
    rw [hf] at hp
    cases hp
  | none =>
    cases hr
    obtain ⟨h1, h2⟩ := h hpos
    refine ⟨fun hp => ?_, fun hp => .inr ?_⟩
    · obtain ⟨ha, he⟩ := h1 hp
      exact ⟨rfl, by simp [ha], rfl, he⟩
    · obtain ⟨ha, he⟩ := h2 hp
      exact ⟨rfl, by simp [← ha], rfl, he⟩

/-- The transient failures of a failed row are its attempts. -/
theorem failures_of_failed {τ : RowTask} {res : ResultRecord} (hr : τ.result = some res)
    (hs : res.status = .failed) (hp : m.refuses τ.item.prompt = false) :
    failures m τ τ.stage = τ.settings.retryMaxAttempts := by
  obtain ⟨⟨text, st, lat, hst⟩, -⟩ := returned_of_result hr
  simp only [RowTask.result, hst] at hr
  rw [hst]
  cases text with
  | some text =>
    cases hr
    cases hs
  | none => simp [failures, hp]

theorem failures_le {s : Proc × Seen} (hb : MockBooks m s) {τ : RowTask} (hτ : τ ∈ s.1.tasks) :
    failures m τ τ.stage ≤ m.transientFail.toNat := by
  have hmem : failures m τ τ.stage ≤ spent m τ.item.prompt s.1.tasks := by
    refine List.single_le_sum (fun _ _ => Nat.zero_le _) _ (List.mem_map.mpr ⟨τ, hτ, ?_⟩)
    rw [if_pos rfl]
  exact hmem.trans ((hb.spent _).trans (hb.budget _))

/-! ## The history -/

/-- A call with this prompt ends in a retryable error. -/
def transient (prompt : String) (t : Trans (Proc × Seen) ProcAct) : Bool :=
  match t.lbl with
  | .row i (.answer (.retryable _)) _ => t.pre.1.tasks[i]?.any fun τ => τ.item.prompt = prompt
  | _ => false

/-- How often that happened, whatever became of the row afterwards. -/
def transients (prompt : String) (tr : List (Trans (Proc × Seen) ProcAct)) : Nat :=
  tr.countP (transient prompt)

theorem transients_snoc (prompt : String) (tr : List (Trans (Proc × Seen) ProcAct))
    (t : Trans (Proc × Seen) ProcAct) :
    transients prompt (tr ++ [t]) = transients prompt tr + (transient prompt t).toNat := by
  unfold transients
  rw [List.countP_append, List.countP_singleton]
  cases transient prompt t <;> rfl

/-- What the client counts at a step. -/
theorem after_transient {s v : Proc × Seen} {i : Nat} {act : RowAct} {latencyMs : Int} {τ : RowTask}
    (hτ : s.1.tasks[i]? = some τ) (ha : m.client.allows s.2 τ act = true) (prompt : String) :
    m.client.after s.2 τ act prompt =
      s.2 prompt + (transient prompt ⟨s, .row i act latencyMs, v⟩).toNat := by
  cases act with
  | enter | wake | raise => rfl
  | answer o =>
    obtain rfl : o = (m.client.call s.2 τ).1 := of_decide_eq_true ha
    show (m.client.call s.2 τ).2 prompt = _
    rcases call_cases m s.2 τ with ⟨-, hc⟩ | ⟨-, -, hc⟩ | ⟨-, hc⟩
    · rw [hc]
      rfl
    · rw [hc]
      simp only [transient, hτ, Option.any_some]
      by_cases he : τ.item.prompt = prompt
      · subst he
        simp
      · rw [Function.update_of_ne (Ne.symm he), decide_eq_false he]
        rfl
    · rw [hc]
      rfl

/-- The client has counted each transient failure of the history. -/
theorem seen_transients {maxConcurrency inflight : Int} {tr : List (Trans (Proc × Seen) ProcAct)}
    {s : Proc × Seen} (h : (m.client.process maxConcurrency inflight).Run tr s) (prompt : String) :
    s.2 prompt = transients prompt tr := by
  refine h.induct (P := fun tr s => s.2 prompt = transients prompt tr) ?_ ?_
  · intro s hs
    rw [hs.2]
    rfl
  · intro tr s l v _ ih hst
    rw [transients_snoc, ← ih]
    cases l with
    | gather cid settings chunk =>
      cases hst
      rfl
    | row i act lat =>
      obtain ⟨τ, hτ, h⟩ := Option.bind_eq_some_iff.mp hst
      simp only [Option.ite_none_right_eq_some, Option.map_eq_some_iff] at h
      obtain ⟨ha, q, -, rfl⟩ := h
      exact after_transient hτ ha prompt

/-- **One budget for a prompt.** Whatever the coroutines of a process do, and
whichever of them are cancelled, the rows with a refused prompt fail at their
first attempt, and each other one that returns succeeds with its own text or
fails after all its attempts; the transient failures of all calls with one prompt
in the history, over all jobs and workers and also those of rows that never
return, are at most `transient_fail`. -/
theorem mock_budget {maxConcurrency inflight : Int} {tr : List (Trans (Proc × Seen) ProcAct)}
    {s : Proc × Seen} (h : (m.client.process maxConcurrency inflight).Run tr s) :
    (∀ τ ∈ s.1.tasks, ∀ res, τ.result = some res → 0 < τ.settings.retryMaxAttempts →
      MockRecord m τ res) ∧
    ∀ prompt, transients prompt tr ≤ m.transientFail.toNat := by
  have hb := mockBooks_reachable h.reachable
  refine ⟨fun τ hτ res hr hpos => mock_record (hb.stage τ hτ) hr hpos, fun prompt => ?_⟩
  rw [← seen_transients h prompt]
  exact hb.budget prompt

/-! ## The run -/

/-- The record of an item, without its attempts and its latency. -/
def mockRecord (m : MockInferenceClient) (item : ClaimedItem) : ResultRecord :=
  if m.refuses item.prompt then
    { externalId := item.externalId, status := .failed, error := some "mock permanent failure" }
  else
    { externalId := item.externalId, status := .succeeded,
      response := some ("[mock] " ++ item.prompt) }

/-- What a record says of the outcome of its row. -/
def outcomePart (res : ResultRecord) : ResultRecord :=
  { res with attempts := 0, latencyMs := none }

/-- No row but those with a refused prompt has failed. -/
structure Isolated (m : MockInferenceClient) (e : EngineRun) (s₀ : PState) (s : RunState) :
    Prop where
  table : List.Forall₂ (fun r₀ r => if e.takes r₀ then r₀.SameKey r ∧
      r.status = (mockRecord m (claimedItem r₀)).status ∧
      r.error = (mockRecord m (claimedItem r₀)).error else r = r₀)
    s₀.items.rows s.pool.items.rows
  records : ∃ stored : List (ChunkId × List ResultRecord),
    s.pool.files.Perm (s₀.files ++ stored.map fun c => wholeFile e.job c.1 c.2) ∧
      ((stored.flatMap (·.2)).map outcomePart).Perm
        ((e.pendingRows s₀).map fun r => mockRecord m (claimedItem r))

/-- With attempts to spare, a record does not depend on the schedule. -/
theorem outcomePart_record {maxConcurrency inflight : Int} {s : Proc × Seen}
    (h : (m.client.process maxConcurrency inflight).Reachable s) {τ : RowTask} (hτ : τ ∈ s.1.tasks)
    {res : ResultRecord} (hr : τ.result = some res) (hpos : 0 < τ.settings.retryMaxAttempts)
    (hlt : m.transientFail < τ.settings.retryMaxAttempts) :
    outcomePart res = mockRecord m τ.item := by
  have hb := mockBooks_reachable h
  have hid := (returned_of_result hr).2.1
  have hmock := mock_record (hb.stage τ hτ) hr hpos
  unfold mockRecord
  split
  · rename_i hp
    obtain ⟨h1, -, h2, h3⟩ := hmock.refused hp
    simp only [outcomePart, hid, h1, h2, h3]
  · rename_i hp
    have hp := Bool.eq_false_of_not_eq_true hp
    rcases hmock.served hp with ⟨h1, h2, h3⟩ | ⟨h1, -⟩
    · simp only [outcomePart, hid, h1, h2, h3]
    · -- its failures alone would be more than the budget
      have hall := failures_of_failed hr h1 hp
      have hle := failures_le hb hτ
      omega

section run
variable {e : EngineRun} {s₀ : PState} {s : RunState × Seen}

/-- The record that a coroutine of the run returned. -/
theorem run_outcomePart (h₀ : Startable e s₀) (hpos : 0 < e.settings.retryMaxAttempts)
    (hlt : m.transientFail < e.settings.retryMaxAttempts)
    (h : (e.liveWith m.client s₀).Reachable s) {τ : RowTask} (hτ : τ ∈ s.1.proc.tasks)
    {res : ResultRecord} (hr : τ.result = some res) : outcomePart res = mockRecord m τ.item := by
  obtain ⟨answers, hb⟩ := booksWith h₀ h
  have hset : τ.settings = e.settings := (hb.working.computes τ hτ).settings
  have hp := (client_process e m.client s₀).reachable h.of_restrict
  exact outcomePart_record hp hτ hr (by rw [hset]; exact hpos) (by rw [hset]; exact hlt)

theorem isolated_of_allLeft (h₀ : Startable e s₀) (hpos : 0 < e.settings.retryMaxAttempts)
    (hlt : m.transientFail < e.settings.retryMaxAttempts)
    (h : (e.liveWith m.client s₀).Reachable s) (hl : AllLeft e s.1) : Isolated m e s₀ s.1 := by
  obtain ⟨answers, hb⟩ := booksWith h₀ h
  have h₀' := h₀.withAnswers answers
  have hl' : AllLeft (e.withAnswers answers) s.1 := hl
  refine ⟨(final_rows h₀' hl' hb).imp fun r₀ r h => ?_, storedChunks s.1,
    final_files (e := e.withAnswers answers) h₀' hl' hb, ?_⟩
  · have htakes : (e.withAnswers answers).takes r₀ = e.takes r₀ := rfl
    rw [htakes] at h
    split
    · rename_i ht
      rw [if_pos ht] at h
      obtain ⟨τ, hτ, res, hi, hres, hk, hs, herr, -⟩ := h
      have hv := run_outcomePart h₀ hpos hlt h hτ hres
      rw [hi] at hv
      rw [← hv]
      exact ⟨hk, hs, herr⟩
    · rename_i ht
      rwa [if_neg ht] at h
  · have hrecords : (s.1.proc.tasks.filterMap RowTask.result).map outcomePart =
        s.1.proc.tasks.map fun τ => mockRecord m τ.item := by
      rw [List.map_filterMap, ← List.filterMap_eq_map]
      refine List.filterMap_congr fun τ hτ => ?_
      obtain ⟨res, hres⟩ := hl'.returned hb hτ
      rw [hres, Option.map_some, run_outcomePart h₀ hpos hlt h hτ hres]
      rfl
    refine ((storedChunks_perm s.1).map outcomePart).trans ?_
    rw [hrecords]
    have hperm := (final_once h₀' hl' hb).map (mockRecord m)
    rw [List.map_map, List.map_map] at hperm
    exact hperm

/-- **A run fails the refused rows and no others.** If a row has more attempts
than there are transient failures for its prompt, the workers, their heartbeats
and the row coroutines may be scheduled as they like, while no lease runs out:
at the end every waiting row has the outcome that its prompt deserves, with one
record in the store, and all other rows and files are as before. A fair schedule
comes to this end. -/
theorem mock_run (h₀ : Startable e s₀) (hpos : 0 < e.settings.retryMaxAttempts)
    (hlt : m.transientFail < e.settings.retryMaxAttempts) :
    (∀ s, (e.liveWith m.client s₀).Reachable s → AllLeft e s.1 → Isolated m e s₀ s.1) ∧
    ∀ state label, (e.liveWith m.client s₀).Schedule state label →
      (e.liveWith m.client s₀).Fair RunAct.progress state label →
        ∃ n, AllLeft e (state n).1 ∧ Isolated m e s₀ (state n).1 := by
  refine ⟨fun s hs hl => isolated_of_allLeft h₀ hpos hlt hs hl, fun state label hs hf => ?_⟩
  obtain ⟨n, hn⟩ := workers_leave_with h₀ hs hf
  exact ⟨n, hn, isolated_of_allLeft h₀ hpos hlt (hs.reachable n) hn⟩

end run

end mock

/-! ## Non-vacuity -/

/-- The prompt of row 2 is refused; that of row 1 fails once. -/
def mock : MockInferenceClient where
  failSubstring := some "DNA"
  transientFail := 1

/-- Of two rows with one prompt, the first gets its one failure and is cancelled. -/
def sharedRun (cid : ChunkId) : List ProcAct :=
  [.gather cid {} [⟨1, "a", "hi", 1⟩, ⟨2, "b", "hi", 1⟩], .row 0 .enter 0, .row 1 .enter 0,
    .row 0 (.answer (.retryable "mock transient failure")) 7, .row 0 .raise 8,
    .row 1 (.answer (.success "[mock] hi")) 9]

theorem mock_budget_shared : ∃ tr s, (mock.client.process 2 0).Run tr s ∧
    s.1.tasks.map (fun τ => τ.result.map (·.status)) = [none, some .succeeded] ∧
      (∀ τ ∈ s.1.tasks, ∀ res, τ.result = some res → MockRecord mock τ res) ∧
        transients "hi" tr ≤ 1 := by
  obtain ⟨⟨tr, s⟩, he, hs, hset⟩ : ∃ p,
      LTS.exec mock.client.step (⟨2, 0, []⟩, fun _ => 0) (sharedRun ⟨"c1", by simp⟩) = some p ∧
      p.2.1.tasks.map (fun τ => τ.result.map (·.status)) = [none, some .succeeded] ∧
      p.2.1.tasks.all (fun τ => 0 < τ.settings.retryMaxAttempts) = true :=
    ⟨_, rfl, by decide +kernel, by decide +kernel⟩
  have hr : (mock.client.process 2 0).Run tr s := ⟨_, ⟨⟨2, rfl, rfl⟩, rfl⟩, LTS.path_of_exec he⟩
  obtain ⟨hrec, hbudget⟩ := mock_budget hr
  refine ⟨tr, s, hr, hs, fun τ hτ res hres => hrec τ hτ res hres ?_, hbudget "hi"⟩
  exact of_decide_eq_true (List.all_eq_true.mp hset τ hτ)

def mockRows : EngineRun where
  job := "j"
  settings := { workerPoolSize := 1, chunkSize := 5 }
  maxConcurrency := 4
  workers := ["w1"]
  client _ _ := .success ""

def mockRowsRun : List RunAct :=
  [.pool (.claim "w1" chunk1 [⟨1, "a", "hi", 1⟩, ⟨2, "b", "DNA", 1⟩]), .row 0 0, .row 1 0, .row 0 1,
    .row 1 1, .row 0 2, .row 0 3, .gathered "w1", .pool (.written "w1"), .pool (.complete "w1" 2),
    .pool (.claim "w1" chunk1 [])]

theorem mock_run_isolated : ∃ s₀ s, Startable mockRows s₀ ∧
    (mockRows.liveWith mock.client s₀).Reachable s ∧ Isolated mock mockRows s₀ s.1 ∧
      s.1.pool.items.rows.map (·.status) = [.succeeded, .failed] := by
  obtain ⟨⟨tr₀, s₀⟩, he₀, hnew, hun, ⟨tr, s⟩, he, hl, hleft, hst⟩ : ∃ p,
      LTS.exec step (.init 0) [.bulkInsert "j" [⟨"a", "hi"⟩, ⟨"b", "DNA"⟩] []] = some p ∧
      mockRows.workers.all (fun w => (p.2.workers w).isNone) = true ∧
      p.2.items.rows.all (fun r => r.status != .claimed) = true ∧
      ∃ q, LTS.exec (mockRows.stepWith mock.client) (⟨mockRows.started p.2, ⟨4, 0, []⟩⟩, fun _ => 0)
          mockRowsRun = some q ∧
        q.1.all (fun t => leasesHold t.pre.1) = true ∧
        mockRows.workers.all (fun w => (q.2.1.pool.workers w).any fun k => k.life = .left) = true ∧
        q.2.1.pool.items.rows.map (·.status) = [.succeeded, .failed] :=
    ⟨_, rfl, by decide, by decide, _, rfl, by decide +kernel, by decide +kernel,
      by decide +kernel⟩
  have h₀ : Startable mockRows s₀ :=
    startable_of_exec he₀ hnew hun rfl (by decide) (by decide)
  have hr : (mockRows.liveWith mock.client s₀).Reachable s := ⟨tr, liveWith_of_exec rfl he hl⟩
  exact ⟨s₀, s, h₀, hr, (mock_run h₀ (by decide) (by decide)).1 s hr (allLeft_of_all hleft), hst⟩

end BatchSystem.Inference
