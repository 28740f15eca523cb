import BatchSystem.Domain.Models
import BatchSystem.Storage.LocalStorage

/-!
# `Worker`: one row, one chunk, and where a worker stands

`processRow` is the retry loop over one item, with the client's answers as a
function of the attempt. It never raises, and its record carries the item's id
and a final status (`processRow_externalId`, `processRow_terminal`), so a
processed chunk has one record per item (`processChunk_ids`).

`Phase` names the awaits of `Worker.run`, with the local variables that are
alive there.
-/
namespace BatchSystem.Engine

open Domain Storage

/-! ## `_process_row` -/

/-- How one `client.complete` ends. -/
inductive Outcome where
  | success (text : String)
  | retryable (msg : String)
  | permanent (msg : String)
  | unexpected (msg : String)
  deriving DecidableEq, Repr

/-- The local variables of `_process_row`, its requests, and the attempts
after which it slept. -/
structure RowState where
  attempt : Nat := 0
  lastError : Option String := none
  requests : List InferenceRequest := []
  sleeps : List Nat := []
  deriving DecidableEq, Repr

/-- mirrors app/engine/worker.py:115-119 -/
def requestFor (settings : Settings) (item : ClaimedItem) : InferenceRequest :=
  { model := settings.llmModel, prompt := item.prompt, maxTokens := settings.maxOutputTokens }

/-- The `for` loop over the attempts: the text on success.
mirrors app/engine/worker.py:113-161 -/
def attemptLoop (settings : Settings) (item : ClaimedItem) (client : Nat → Outcome) :
    List Nat → RowState → Option String × RowState
  | [], st => (none, st)
  | attempt :: rest, st =>
    let st := { st with attempt, requests := st.requests ++ [requestFor settings item] }
    match client attempt with
    | .success text => (some text, st)
    | .retryable msg =>
      let st := { st with lastError := some msg }
      if attempt < settings.retryMaxAttempts - 1 then
        attemptLoop settings item client rest { st with sleeps := st.sleeps ++ [attempt] }
      else attemptLoop settings item client rest st
    | .permanent msg => (none, { st with lastError := some msg })
    | .unexpected msg => (none, { st with lastError := some ("unexpected: " ++ msg) })

/-- `latencyMs` is what the clock says at the return.
mirrors app/engine/worker.py:100-178 -/
def processRow (settings : Settings) (item : ClaimedItem) (client : Nat → Outcome)
    (latencyMs : Int) : ResultRecord × RowState :=
  match attemptLoop settings item client (List.range settings.retryMaxAttempts) {} with
  | (some text, st) =>
    ({ externalId := item.externalId, status := .succeeded, response := some text,
       attempts := st.attempt + 1, latencyMs := some latencyMs }, st)
  | (none, st) =>
    ({ externalId := item.externalId, status := .failed, error := st.lastError,
       attempts := st.attempt + 1, latencyMs := some latencyMs }, st)

/-- `asyncio.gather` keeps the order of the chunk.
mirrors app/engine/worker.py:94-98 -/
def processChunk (settings : Settings) (chunk : List ClaimedItem)
    (client : Nat → Nat → Outcome) (latencyMs : Nat → Int) : List ResultRecord :=
  chunk.map fun c => (processRow settings c (client c.id) (latencyMs c.id)).1

theorem processRow_externalId (settings : Settings) (item : ClaimedItem) (client : Nat → Outcome)
    (latencyMs : Int) : (processRow settings item client latencyMs).1.externalId =
      item.externalId := by
  unfold processRow
  split <;> rfl

theorem processRow_terminal (settings : Settings) (item : ClaimedItem) (client : Nat → Outcome)
    (latencyMs : Int) : (processRow settings item client latencyMs).1.status.terminal = true := by
  unfold processRow
  split <;> rfl

theorem processChunk_ids (settings : Settings) (chunk : List ClaimedItem)
    (client : Nat → Nat → Outcome) (latencyMs : Nat → Int) :
    (processChunk settings chunk client latencyMs).map (·.externalId) =
      chunk.map (·.externalId) := by
  simp [processChunk, processRow_externalId]

theorem processChunk_terminal (settings : Settings) (chunk : List ClaimedItem)
    (client : Nat → Nat → Outcome) (latencyMs : Nat → Int) :
    ∀ res ∈ processChunk settings chunk client latencyMs, res.status.terminal = true := by
  intro res hres
  obtain ⟨c, -, rfl⟩ := List.mem_map.mp hres
  exact processRow_terminal settings c _ _

section requests
variable (settings : Settings) (item : ClaimedItem) (client : Nat → Outcome)

/-- The requests before the loop, and then the one request of the row again and
again. -/
theorem attemptLoop_requests (attempts : List Nat) (st : RowState) :
    ∃ n, (attemptLoop settings item client attempts st).2.requests =
      st.requests ++ List.replicate n (requestFor settings item) ∧ (attempts ≠ [] → n ≠ 0) := by
  induction attempts generalizing st with
  | nil => exact ⟨0, by simp [attemptLoop], by simp⟩
  | cons attempt rest ih =>
    -- one request, and those of the remaining attempts
    have more : ∀ st' : RowState, st'.requests = st.requests ++ [requestFor settings item] →
        ∃ n, (attemptLoop settings item client rest st').2.requests =
          st.requests ++ List.replicate n (requestFor settings item) ∧
            (attempt :: rest ≠ [] → n ≠ 0) := by
      intro st' hst
      obtain ⟨n, hn, -⟩ := ih st'
      refine ⟨n + 1, ?_, by omega⟩
      rw [hn, hst, List.replicate_succ, List.append_assoc]
      rfl
    have last : ∃ n, st.requests ++ [requestFor settings item] =
        st.requests ++ List.replicate n (requestFor settings item) ∧
          (attempt :: rest ≠ [] → n ≠ 0) := ⟨1, rfl, by omega⟩
    simp only [attemptLoop]
    split
    · exact last
    · split
      · exact more _ rfl
      · exact more _ rfl
    · exact last
    · exact last

theorem processRow_snd (latencyMs : Int) : (processRow settings item client latencyMs).2 =
    (attemptLoop settings item client (List.range settings.retryMaxAttempts) {}).2 := by
  unfold processRow
  split <;> rename_i h <;> rw [h]

theorem processRow_requests (latencyMs : Int) :
    ∃ n, (processRow settings item client latencyMs).2.requests =
      List.replicate n (requestFor settings item) ∧ (settings.retryMaxAttempts ≠ 0 → n ≠ 0) := by
  obtain ⟨n, hn, h0⟩ := attemptLoop_requests settings item client
    (List.range settings.retryMaxAttempts) {}
  exact ⟨n, by rw [processRow_snd, hn]; rfl, fun h => h0 (by simpa using h)⟩

end requests

/-! ## `Worker.run` -/

/-- The heartbeat task: asleep until `wake`, or ended by an exception. -/
inductive Heartbeat where
  | sleeping (wake : Int)
  | failed
  deriving DecidableEq, Repr

/-- The await at which a worker stands. mirrors app/engine/worker.py:55-92 -/
inductive Phase where
  | claiming
  | processing (chunkId : ChunkId) (chunk : List ClaimedItem) (heartbeat : Heartbeat)
  | writing (chunkId : ChunkId) (chunk : List ClaimedItem) (results : List ResultRecord)
  | completing (chunkId : ChunkId) (chunk : List ClaimedItem) (results : List ResultRecord)
      (ref : String)
  deriving DecidableEq

/-- The chunk that a worker holds. -/
def Phase.chunk : Phase → List ClaimedItem
  | .claiming => []
  | .processing _ chunk _ | .writing _ chunk _ | .completing _ chunk _ _ => chunk

def Phase.chunkId : Phase → Option ChunkId
  | .claiming => none
  | .processing chunkId _ _ | .writing chunkId _ _ | .completing chunkId _ _ _ => some chunkId

/-- The file of the chunk is not whole yet. -/
def Phase.open : Phase → Bool
  | .processing .. | .writing .. => true
  | .claiming | .completing .. => false

/-- `left`: returned after an empty claim. `raised`, `crashed`: gone since the
given instant, by an exception or with its process. -/
inductive Life where
  | running
  | left
  | raised (since : Int)
  | crashed (since : Int)
  deriving DecidableEq, Repr

/-- A worker that stopped keeps the phase in which it stopped. -/
structure Worker where
  job : JobId
  settings : Settings
  phase : Phase := .claiming
  life : Life := .running
  deriving DecidableEq

end BatchSystem.Engine
