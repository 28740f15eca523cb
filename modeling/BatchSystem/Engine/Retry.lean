import Mathlib.Algebra.Order.Field.Basic
import Mathlib.Algebra.Order.Ring.Rat
import BatchSystem.Engine.Worker

/-!
# The retry loop and its policy

`_process_row` with what it does in order: its calls of the client and its
sleeps with their delays. Call number `i` ends in outcome `i` of an unbounded
sequence, and back-off number `i` uses draw `i` of the random generator.

* `processRowTraced_eq`: without the trace this is `processRow`.
* `delayFor_bounds`: full jitter stays between zero and the ceiling.
* `retryLoop_run`: from attempt `n` on, the loop retries up to the stop index.
* `processRow_attempts`: the record counts the calls, and `asksFor_iff` says
  which answers make at least `n` of them.
* `retry_exact`: the row makes one call more than it sleeps, sleeps after each
  retryable failure but the last attempt, and reports the last outcome.
-/
namespace BatchSystem.Engine

open Domain

/-! ## `RetryPolicy` -/

/-- The fields that `delay_for` reads. mirrors app/engine/retry.py:14-26 -/
structure RetryPolicy where
  base : Rat := 1
  factor : Rat := 2
  cap : Rat := 30
  deriving DecidableEq, Repr

/-- mirrors app/composition.py:70-75 -/
def retryPolicy (settings : Settings) : RetryPolicy :=
  { base := settings.retryBase, factor := settings.retryFactor, cap := settings.retryCap }

/-- What `random.random()` may return. -/
structure Draw where
  val : Rat
  nonneg : 0 ≤ val
  lt_one : val < 1

/-- `random.uniform(a, b)`. -/
def uniform (a b : Rat) (random : Draw) : Rat := a + (b - a) * random.val

def RetryPolicy.ceiling (p : RetryPolicy) (attempt : Nat) : Rat :=
  min p.cap (p.base * p.factor ^ attempt)

/-- mirrors app/engine/retry.py:31-33 -/
def RetryPolicy.delayFor (p : RetryPolicy) (attempt : Nat) (random : Draw) : Rat :=
  uniform 0 (p.ceiling attempt) random

/-- No value is negative. -/
structure RetryPolicy.Nonneg (p : RetryPolicy) : Prop where
  base : 0 ≤ p.base
  factor : 0 ≤ p.factor
  cap : 0 ≤ p.cap

theorem delayFor_bounds {p : RetryPolicy} (hp : p.Nonneg) (attempt : Nat) (random : Draw) :
    0 ≤ p.delayFor attempt random ∧
      p.delayFor attempt random ≤ min p.cap (p.base * p.factor ^ attempt) := by
  have hc : 0 ≤ p.ceiling attempt :=
    le_min hp.cap (mul_nonneg hp.base (pow_nonneg hp.factor attempt))
  have hd : p.delayFor attempt random = p.ceiling attempt * random.val := by
    unfold RetryPolicy.delayFor uniform
    rw [zero_add, sub_zero]
  rw [hd]
  refine ⟨mul_nonneg hc random.nonneg, ?_⟩
  exact mul_le_of_le_one_right hc (le_of_lt random.lt_one)

/-! ## The traced loop -/

/-- An await of `_process_row`, a call with how it ends. -/
inductive RowEvent where
  | call (request : InferenceRequest) (outcome : Outcome)
  | sleep (delay : Rat)
  deriving DecidableEq

def RowEvent.isCall : RowEvent → Bool
  | .call _ _ => true
  | .sleep _ => false

def RowEvent.isSleep : RowEvent → Bool
  | .call _ _ => false
  | .sleep _ => true

def RowEvent.request? : RowEvent → Option InferenceRequest
  | .call request _ => some request
  | .sleep _ => none

/-- The number of calls among the awaits. -/
def calls (es : List RowEvent) : Nat := es.countP RowEvent.isCall

/-- The number of sleeps among the awaits. -/
def sleeps (es : List RowEvent) : Nat := es.countP RowEvent.isSleep

theorem calls_call (es : List RowEvent) (request : InferenceRequest) (o : Outcome) :
    calls (es ++ [.call request o]) = calls es + 1 := by
  simp [calls, RowEvent.isCall]

theorem calls_sleep (es : List RowEvent) (delay : Rat) :
    calls (es ++ [.sleep delay]) = calls es := by
  simp [calls, RowEvent.isCall]

theorem sleeps_call (es : List RowEvent) (request : InferenceRequest) (o : Outcome) :
    sleeps (es ++ [.call request o]) = sleeps es := by
  simp [sleeps, RowEvent.isSleep]

theorem sleeps_sleep (es : List RowEvent) (delay : Rat) :
    sleeps (es ++ [.sleep delay]) = sleeps es + 1 := by
  simp [sleeps, RowEvent.isSleep]

/-- The local variables of `_process_row`, and its awaits so far. -/
structure RowTrace where
  attempt : Nat := 0
  lastError : Option String := none
  events : List RowEvent := []
  deriving DecidableEq

section loop
variable (settings : Settings) (policy : RetryPolicy) (item : ClaimedItem)
  (client : Nat → Outcome) (random : Nat → Draw)

/-- The `for` loop over the attempts; every outcome of the client is taken by an
`except` clause. mirrors app/engine/worker.py:113-159 -/
def retryLoop : List Nat → RowTrace → Option String × RowTrace
  | [], st => (none, st)
  | attempt :: rest, st =>
    let outcome := client (calls st.events)
    let st := { st with
      attempt, events := st.events ++ [.call (requestFor settings item) outcome] }
    match outcome with
    | .success text => (some text, st)
    | .retryable msg =>
      let st := { st with lastError := some msg }
      if attempt < settings.retryMaxAttempts - 1 then
        let delay := policy.delayFor attempt (random (sleeps st.events))
        retryLoop rest { st with events := st.events ++ [.sleep delay] }
      else retryLoop rest st
    | .permanent msg => (none, { st with lastError := some msg })
    | .unexpected msg => (none, { st with lastError := some ("unexpected: " ++ msg) })

/-- mirrors app/engine/worker.py:100-178 -/
def processRowTraced (latencyMs : Int) : ResultRecord × List RowEvent :=
  match retryLoop settings policy item client random (List.range settings.retryMaxAttempts) {} with
  | (some text, st) =>
    ({ externalId := item.externalId, status := .succeeded, response := some text,
       attempts := st.attempt + 1, latencyMs := some latencyMs }, st.events)
  | (none, st) =>
    ({ externalId := item.externalId, status := .failed, error := st.lastError,
       attempts := st.attempt + 1, latencyMs := some latencyMs }, st.events)

end loop

/-! ## The trace aside -/

/-- The same local variables, and the calls of the trace as the requests. -/
structure Traces (st : RowTrace) (st' : RowState) : Prop where
  attempt : st.attempt = st'.attempt
  lastError : st.lastError = st'.lastError
  requests : st.events.filterMap RowEvent.request? = st'.requests

section aside
variable (settings : Settings) (policy : RetryPolicy) (item : ClaimedItem)
  (client : Nat → Outcome) (random : Nat → Draw)

theorem retryLoop_traces (len n : Nat) {st : RowTrace} {st' : RowState} (hn : calls st.events = n)
    (h : Traces st st') :
    (retryLoop settings policy item client random (List.range' n len) st).1 =
        (attemptLoop settings item client (List.range' n len) st').1 ∧
      Traces (retryLoop settings policy item client random (List.range' n len) st).2
        (attemptLoop settings item client (List.range' n len) st').2 := by
  induction len generalizing n st st' with
  | zero => exact ⟨rfl, h⟩
  | succ len ih =>
    have hreq : ∀ o, (st.events ++ [RowEvent.call (requestFor settings item) o]).filterMap
        RowEvent.request? = st'.requests ++ [requestFor settings item] := by
      intro o
      rw [List.filterMap_append, h.requests]
      rfl
    rw [List.range'_succ]
    simp only [retryLoop, attemptLoop, hn]
    cases client n with
    | success text => exact ⟨rfl, rfl, h.lastError, hreq _⟩
    | permanent msg => exact ⟨rfl, rfl, rfl, hreq _⟩
    | unexpected msg => exact ⟨rfl, rfl, rfl, hreq _⟩
    | retryable msg =>
      simp only
      split
      · refine ih (n + 1) (by rw [calls_sleep, calls_call, hn]) ⟨rfl, rfl, ?_⟩
        rw [List.filterMap_append, hreq]
        exact List.append_nil _
      · exact ih (n + 1) (by rw [calls_call, hn]) ⟨rfl, rfl, hreq _⟩

/-- The traced row returns what `processRow` returns, with the same requests. -/
theorem processRowTraced_eq (latencyMs : Int) :
    (processRowTraced settings policy item client random latencyMs).1 =
        (processRow settings item client latencyMs).1 ∧
      (processRowTraced settings policy item client random latencyMs).2.filterMap
        RowEvent.request? = (processRow settings item client latencyMs).2.requests := by
  have start : Traces {} {} := ⟨rfl, rfl, rfl⟩
  obtain ⟨h1, h2⟩ := retryLoop_traces settings policy item client random settings.retryMaxAttempts
    0 rfl start
  rw [← List.range_eq_range'] at h1 h2
  unfold processRowTraced processRow
  revert h1 h2
  generalize retryLoop settings policy item client random (List.range settings.retryMaxAttempts)
    {} = r
  generalize attemptLoop settings item client (List.range settings.retryMaxAttempts) {} = r'
  intro h1 h2
  obtain ⟨text, st⟩ := r
  obtain ⟨text', st'⟩ := r'
  obtain rfl : text = text' := h1
  have ha : st.attempt = st'.attempt := h2.attempt
  have hl : st.lastError = st'.lastError := h2.lastError
  cases text with
  | none => exact ⟨by simp only [ha, hl], h2.requests⟩
  | some text => exact ⟨by simp only [ha], h2.requests⟩

end aside

/-! ## Where the loop stops -/

def Outcome.isRetryable : Outcome → Bool
  | .retryable _ => true
  | .success _ | .permanent _ | .unexpected _ => false

/-- The index of the first outcome that is not retryable if it is below `m`,
and `m - 1` otherwise. -/
def stopIndex (client : Nat → Outcome) (m : Nat) : Nat :=
  ((List.range m).find? fun i => !(client i).isRetryable).getD (m - 1)

theorem stopIndex_spec (client : Nat → Outcome) {m : Nat} (hm : 1 ≤ m) :
    stopIndex client m < m ∧ (∀ i < stopIndex client m, (client i).isRetryable = true) ∧
      (stopIndex client m = m - 1 ∨ (client (stopIndex client m)).isRetryable = false) := by
  unfold stopIndex
  cases hf : (List.range m).find? fun i => !(client i).isRetryable with
  | none =>
    rw [Option.getD_none]
    rw [List.find?_range_eq_none] at hf
    refine ⟨by omega, fun i hi => ?_, .inl rfl⟩
    simpa using hf i (by omega)
  | some k =>
    rw [Option.getD_some]
    rw [List.find?_range_eq_some] at hf
    obtain ⟨hk, hmem, hbefore⟩ := hf
    refine ⟨List.mem_range.mp hmem, fun i hi => ?_, .inr ?_⟩
    · simpa using hbefore i hi
    · simpa using hk

/-- The row asks its client at least `n` times: each answer before the last of
them is retryable, and the limit leaves a further attempt. -/
def AsksFor (settings : Settings) (client : Nat → Outcome) (n : Nat) : Prop :=
  ∀ i, i + 1 < n → i + 1 < settings.retryMaxAttempts ∧ (client i).isRetryable = true

theorem asksFor_iff (settings : Settings) (client : Nat → Outcome) (n : Nat) :
    AsksFor settings client n ↔ n ≤ stopIndex client settings.retryMaxAttempts + 1 := by
  by_cases hm : 1 ≤ settings.retryMaxAttempts
  · obtain ⟨hk, hbefore, hstop⟩ := stopIndex_spec client hm
    constructor
    · intro h
      by_contra hlt
      obtain ⟨hnext, hretry⟩ := h _ (not_le.mp hlt)
      rcases hstop with hlast | hfinal
      · omega
      · rw [hfinal] at hretry
        cases hretry
    · intro h i hi
      exact ⟨by omega, hbefore i (by omega)⟩
  · have hzero : settings.retryMaxAttempts = 0 := by omega
    unfold AsksFor
    rw [hzero]
    constructor
    · intro h
      by_contra hlt
      exact absurd (h 0 (by omega)).1 (by omega)
    · intro h i hi
      have hle : n ≤ 1 := h
      omega

instance (settings : Settings) (client : Nat → Outcome) (n : Nat) :
    Decidable (AsksFor settings client n) :=
  decidable_of_iff _ (asksFor_iff settings client n).symm

theorem isRetryable_iff {o : Outcome} : o.isRetryable = true ↔ ∃ msg, o = .retryable msg := by
  cases o <;> simp [Outcome.isRetryable]

/-- The text with which an outcome ends the row. -/
def Outcome.text : Outcome → Option String
  | .success text => some text
  | .retryable _ | .permanent _ | .unexpected _ => none

/-- What an outcome leaves in `last_error`. -/
def Outcome.error : Outcome → Option String
  | .success _ => none
  | .retryable msg | .permanent msg => some msg
  | .unexpected msg => some ("unexpected: " ++ msg)

section run
variable (settings : Settings) (policy : RetryPolicy) (item : ClaimedItem)
  (client : Nat → Outcome) (random : Nat → Draw)

/-- A retried attempt: a call and the sleep after it. -/
def retried (i : Nat) : List RowEvent :=
  [.call (requestFor settings item) (client i), .sleep (policy.delayFor i (random i))]

/-- An outcome that is not retryable ends the loop. -/
theorem retryLoop_final {st : RowTrace}
    (h : (client (calls st.events)).isRetryable = false) (attempt : Nat) (rest : List Nat) :
    retryLoop settings policy item client random (attempt :: rest) st =
      ((client (calls st.events)).text,
        { attempt, lastError := (client (calls st.events)).error.or st.lastError,
          events := st.events ++
            [.call (requestFor settings item) (client (calls st.events))] }) := by
  simp only [retryLoop]
  cases ho : client (calls st.events) with
  | success | permanent | unexpected => rfl
  | retryable msg =>
    rw [ho] at h
    cases h

/-- A retryable one before the last attempt is followed by a sleep. -/
theorem retryLoop_retry {st : RowTrace} {msg : String}
    (h : client (calls st.events) = .retryable msg) {attempt : Nat}
    (ha : attempt < settings.retryMaxAttempts - 1) (rest : List Nat) :
    retryLoop settings policy item client random (attempt :: rest) st =
      retryLoop settings policy item client random rest
        { attempt, lastError := some msg,
          events := st.events ++ [.call (requestFor settings item) (.retryable msg)] ++
            [.sleep (policy.delayFor attempt (random (sleeps st.events)))] } := by
  simp only [retryLoop, h, if_pos ha, sleeps_call]

/-- A retryable one at the last attempt is not. -/
theorem retryLoop_exhausted {st : RowTrace} {msg : String}
    (h : client (calls st.events) = .retryable msg) {attempt : Nat}
    (ha : attempt = settings.retryMaxAttempts - 1) :
    retryLoop settings policy item client random [attempt] st =
      (none, { attempt, lastError := some msg,
               events := st.events ++
                 [.call (requestFor settings item) (.retryable msg)] }) := by
  have hn : ¬ attempt < settings.retryMaxAttempts - 1 := by omega
  simp only [retryLoop, h, if_neg hn]

/-- From attempt `n` on the loop retries up to the stop index `k`. The induction
is on the attempts left before it. -/
theorem retryLoop_run {k : Nat} (hk : k < settings.retryMaxAttempts)
    (hbefore : ∀ i < k, (client i).isRetryable = true)
    (hstop : k = settings.retryMaxAttempts - 1 ∨ (client k).isRetryable = false) (d : Nat) :
    ∀ (n : Nat) (st : RowTrace), n + d = k → calls st.events = n → sleeps st.events = n →
      ∃ e, retryLoop settings policy item client random
          (List.range' n (settings.retryMaxAttempts - n)) st =
        ((client k).text,
          { attempt := k, lastError := e,
            events := st.events ++
              (List.range' n d).flatMap (retried settings policy item client random) ++
              [.call (requestFor settings item) (client k)] }) ∧
        ((client k).text = none → e = (client k).error) := by
  induction d with
  | zero =>
    intro n st hn hc _
    obtain rfl : n = k := hn
    have hlen : settings.retryMaxAttempts - n = settings.retryMaxAttempts - n - 1 + 1 := by omega
    rw [hlen, List.range'_succ, List.range'_zero, List.flatMap_nil, List.append_nil]
    cases hr : (client n).isRetryable with
    | false =>
      refine ⟨(client n).error.or st.lastError, ?_, fun ht => ?_⟩
      · rw [← hc] at hr
        rw [retryLoop_final settings policy item client random hr, hc]
      · cases ho : client n with
        | success text =>
          rw [ho] at ht
          cases ht
        | permanent | unexpected | retryable => rfl
    | true =>
      obtain ⟨msg, ho⟩ := isRetryable_iff.mp hr
      have hlast : n = settings.retryMaxAttempts - 1 :=
        hstop.resolve_right (by rw [hr]; simp)
      refine ⟨some msg, ?_, fun _ => by rw [ho]; rfl⟩
      rw [show settings.retryMaxAttempts - n - 1 = 0 by omega, List.range'_zero, ho]
      exact retryLoop_exhausted settings policy item client random (hc.symm ▸ ho) hlast
  | succ d ih =>
    intro n st hn hc hs
    obtain ⟨msg, ho⟩ := isRetryable_iff.mp (hbefore n (by omega))
    have hlen : settings.retryMaxAttempts - n = settings.retryMaxAttempts - (n + 1) + 1 := by omega
    rw [hlen, List.range'_succ,
      retryLoop_retry settings policy item client random (hc.symm ▸ ho) (by omega), hs]
    obtain ⟨e, he, hn'⟩ := ih (n + 1)
      { attempt := n, lastError := some msg,
        events := st.events ++ [.call (requestFor settings item) (.retryable msg)] ++
          [.sleep (policy.delayFor n (random n))] }
      (by omega) (by rw [calls_sleep, calls_call, hc]) (by rw [sleeps_sleep, sleeps_call, hs])
    refine ⟨e, he.trans ?_, hn'⟩
    rw [List.range'_succ, List.flatMap_cons]
    simp only [retried, ho, List.append_assoc, List.cons_append, List.nil_append]

/-- The record counts the calls up to the stop index. -/
theorem processRowTraced_attempts (latencyMs : Int) :
    (processRowTraced settings policy item client random latencyMs).1.attempts =
      stopIndex client settings.retryMaxAttempts + 1 := by
  by_cases hm : 1 ≤ settings.retryMaxAttempts
  · obtain ⟨hk, hbefore, hstop⟩ := stopIndex_spec client hm
    obtain ⟨e, he, -⟩ := retryLoop_run settings policy item client random hk hbefore hstop
      (stopIndex client settings.retryMaxAttempts) 0 {} (Nat.zero_add _) rfl rfl
    rw [Nat.sub_zero, ← List.range_eq_range'] at he
    unfold processRowTraced
    rw [he]
    cases (client (stopIndex client settings.retryMaxAttempts)).text <;> rfl
  · have hzero : settings.retryMaxAttempts = 0 := by omega
    unfold processRowTraced
    rw [hzero]
    rfl

theorem processRow_attempts (latencyMs : Int) :
    (processRow settings item client latencyMs).1.attempts =
      stopIndex client settings.retryMaxAttempts + 1 := by
  have least : Draw := ⟨0, le_refl 0, zero_lt_one⟩
  rw [← (processRowTraced_eq settings {} item client (fun _ => least) latencyMs).1]
  exact processRowTraced_attempts settings {} item client (fun _ => least) latencyMs

end run

/-- The record of a row whose last outcome is `o`, after `attempts` calls. -/
def recordOf (item : ClaimedItem) (attempts latencyMs : Int) : Outcome → ResultRecord
  | .success text =>
    { externalId := item.externalId, status := .succeeded, response := some text, attempts,
      latencyMs := some latencyMs }
  | .retryable msg | .permanent msg =>
    { externalId := item.externalId, status := .failed, error := some msg, attempts,
      latencyMs := some latencyMs }
  | .unexpected msg =>
    { externalId := item.externalId, status := .failed, error := some ("unexpected: " ++ msg),
      attempts, latencyMs := some latencyMs }

theorem calls_retried (settings : Settings) (policy : RetryPolicy) (item : ClaimedItem)
    (client : Nat → Outcome) (random : Nat → Draw) (k : Nat) :
    calls ((List.range k).flatMap (retried settings policy item client random)) = k ∧
      sleeps ((List.range k).flatMap (retried settings policy item client random)) = k := by
  induction k with
  | zero => exact ⟨rfl, rfl⟩
  | succ k ih =>
    rw [List.range_succ, List.flatMap_append]
    simp only [calls, sleeps, List.countP_append] at ih ⊢
    rw [ih.1, ih.2]
    exact ⟨rfl, rfl⟩

/-! ## Headline -/

/-- **The retry loop follows its policy**: for every sequence of outcomes and
every choice of the random generator, the row makes `k + 1` calls and sleeps
between them, each time within full jitter, and returns one record of the last
outcome. -/
theorem retry_exact (settings : Settings) (hm : 1 ≤ settings.retryMaxAttempts)
    {policy : RetryPolicy} (hp : policy.Nonneg) (item : ClaimedItem) (client : Nat → Outcome)
    (random : Nat → Draw) (latencyMs : Int) :
    let k := stopIndex client settings.retryMaxAttempts
    let r := processRowTraced settings policy item client random latencyMs
    r.2 = (List.range k).flatMap (fun i =>
        [RowEvent.call (requestFor settings item) (client i),
          .sleep (policy.delayFor i (random i))]) ++
      [.call (requestFor settings item) (client k)] ∧
    calls r.2 = k + 1 ∧ sleeps r.2 = k ∧ k < settings.retryMaxAttempts ∧
    (∀ i < k, (client i).isRetryable = true) ∧
    (∀ i < k, 0 ≤ policy.delayFor i (random i) ∧
      policy.delayFor i (random i) ≤ min policy.cap (policy.base * policy.factor ^ i)) ∧
    r.1 = recordOf item (k + 1) latencyMs (client k) := by
  intro k r
  obtain ⟨hk, hbefore, hstop⟩ := stopIndex_spec client hm
  obtain ⟨e, he, herr⟩ :=
    retryLoop_run settings policy item client random hk hbefore hstop k 0 {} (by omega) rfl rfl
  rw [Nat.sub_zero, ← List.range_eq_range', ← List.range_eq_range'] at he
  have hr : r = processRowTraced settings policy item client random latencyMs := rfl
  unfold processRowTraced at hr
  rw [he] at hr
  have hev : r.2 = (List.range k).flatMap (retried settings policy item client random) ++
      [.call (requestFor settings item) (client k)] := by
    rw [hr]
    cases (client k).text <;> rfl
  obtain ⟨hcalls, hsleeps⟩ := calls_retried settings policy item client random k
  refine ⟨hev, ?_, ?_, hk, hbefore, fun i _ => delayFor_bounds hp i (random i), ?_⟩
  · rw [hev, calls_call, hcalls]
  · rw [hev, sleeps_call, hsleeps]
  · rw [hr]
    cases ho : client k with
    | success text => simp only [k, Outcome.text, recordOf]
    | retryable msg | permanent msg | unexpected msg =>
      simp only [k, ho, Outcome.text, recordOf, herr, Outcome.error]

/-! ## Non-vacuity -/

/-- The client is busy once and then answers. -/
def busyOnce : Nat → Outcome
  | 0 => .retryable "busy"
  | _ + 1 => .success "ok"

/-- The generator returns its least value. -/
def leastDraw : Draw := ⟨0, by decide, by decide⟩

theorem retry_exact_busyOnce :
    let r := processRowTraced {} (retryPolicy {}) ⟨1, "a", "hi", 1⟩ busyOnce (fun _ => leastDraw) 7
    calls r.2 = 2 ∧ sleeps r.2 = 1 ∧
      r.1 = { externalId := "a", status := .succeeded, response := some "ok", attempts := 2,
              latencyMs := some 7 } := by
  have hp : (retryPolicy {}).Nonneg := ⟨by decide, by decide, by decide⟩
  have hk : stopIndex busyOnce ({} : Settings).retryMaxAttempts = 1 := by decide
  obtain ⟨-, h1, h2, -, -, -, h3⟩ :=
    retry_exact {} (by decide) hp ⟨1, "a", "hi", 1⟩ busyOnce (fun _ => leastDraw) 7
  rw [hk] at h1 h2 h3
  exact ⟨h1, h2, h3⟩

end BatchSystem.Engine
