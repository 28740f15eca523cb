import BatchSystem.Engine.Contents
import BatchSystem.Engine.Queued
import BatchSystem.Engine.Rows

/-!
# One `BatchEngine.run`

The workers of one run over the queue table and the result store, together with
the row coroutines that their chunks are gathered from. No call fails, and the
client's answer to a row depends on the row and the attempt only. A worker
leaves `_process_chunk` when all coroutines of its chunk have returned.

* `RunMove`: what each step requires and does.
* `rows_refine`: the coroutines are those of a process with one limiter.
* `Working`, `working_step`: each chunk is in the hands of its own coroutines,
  so that `gathered` is `processChunk` and every step is one of the worker pool
  (`pool_step`).
-/
namespace BatchSystem.Engine

open BatchSystem.Core Domain Queue Storage PState

/-! ## The run -/

structure EngineRun where
  job : JobId
  settings : Settings
  maxConcurrency : Int
  workers : List WorkerId
  /-- The answer to each attempt at each row. -/
  client : Nat → Nat → Outcome

structure RunState where
  pool : PState
  proc : Proc

inductive RunAct where
  | pool (a : Act)
  | row (i : Nat) (latencyMs : Int)
  | gathered (w : WorkerId)

/-- What the await of a coroutine ends in, unless it is interrupted. -/
def RowTask.next (τ : RowTask) (client : Nat → Outcome) : Option RowAct :=
  match τ.stage with
  | .waiting => some .enter
  | .calling st => some (.answer (client st.attempt))
  | .sleeping _ => some .wake
  | .returned .. | .raised | .cancelled => none

/-- The coroutines of a chunk. -/
def Proc.chunkTasks (p : Proc) (cid : ChunkId) : List RowTask :=
  p.tasks.filter fun τ => τ.chunkId = cid

/-- The results of the coroutines in their order, when all have returned.
mirrors app/engine/worker.py:98 -/
def gathered : List RowTask → Option (List ResultRecord)
  | [] => some []
  | τ :: rest => τ.result.bind fun res => (gathered rest).map (res :: ·)

namespace EngineRun
variable (e : EngineRun)

/-- The acts of the workers of the run, other than the processing of a chunk. -/
def owns : Act → Bool
  | .tick _ => true
  | .claim w _ _ | .renew w | .writePart w _ _ | .written w | .complete w _ => e.workers.contains w
  | _ => false

/-- A claim is followed by the gather of its chunk. mirrors app/engine/worker.py:94-98 -/
def spawn (p : Proc) : Act → Proc
  | .claim _ chunkId chunk => p.gather chunkId e.settings chunk
  | _ => p

def step (s : RunState) : RunAct → Option RunState
  | .pool a => if e.owns a then (Engine.step s.pool a).map fun p => ⟨p, e.spawn s.proc a⟩ else none
  | .row i latencyMs =>
    s.proc.tasks[i]?.bind fun τ => (τ.next (e.client τ.item.id)).bind fun act =>
      (s.proc.step (.row i act latencyMs)).map fun q => { s with proc := q }
  -- mirrors app/engine/worker.py:74-79
  | .gathered w =>
    (s.pool.running w).bind fun k => match k.phase with
      | .processing chunkId chunk (.sleeping _) =>
        if e.workers.contains w then
          (Engine.gathered (s.proc.chunkTasks chunkId)).map fun results =>
            { s with pool := s.pool.setPhase w k (.writing chunkId chunk results) }
        else none
      | _ => none

/-- The workers are created. mirrors app/engine/batch_engine.py:45-56 -/
def started (s₀ : PState) : PState :=
  { s₀ with
    workers := fun x =>
      if x ∈ e.workers then some { job := e.job, settings := e.settings } else s₀.workers x }

/-- The run, begun in `s₀` by a process with a new limiter. -/
def system (s₀ : PState) : LTS RunState RunAct :=
  LTS.ofFn (fun s => ∃ n, newLimiter e.maxConcurrency = .ok n ∧ s = ⟨e.started s₀, ⟨n, 0, []⟩⟩)
    e.step

end EngineRun

section moves
variable {e : EngineRun} {s v : RunState} {l : RunAct}

inductive RunMove (e : EngineRun) (s : RunState) : RunAct → RunState → Prop
  | pool {a : Act} {p : PState} (ha : e.owns a = true) (hst : pool.step s.pool a p) :
      RunMove e s (.pool a) ⟨p, e.spawn s.proc a⟩
  | row {i : Nat} {latencyMs : Int} {τ : RowTask} {act : RowAct} {v : Stage} {es : List Effect}
      {q : Proc} (hτ : s.proc.tasks[i]? = some τ)
      (hn : τ.next (e.client τ.item.id) = some act) (hs : τ.step latencyMs act = some (v, es))
      (hq : s.proc.applyAll es = some q) :
      RunMove e s (.row i latencyMs)
        ⟨s.pool, { q with tasks := s.proc.tasks.set i { τ with stage := v } }⟩
  | gathered {w : WorkerId} {k : Worker} {cid : ChunkId} {chunk : List ClaimedItem} {wake : Int}
      {results : List ResultRecord} (hw : w ∈ e.workers) (hk : s.pool.workers w = some k)
      (hl : k.life = .running) (hp : k.phase = .processing cid chunk (.sleeping wake))
      (hg : Engine.gathered (s.proc.chunkTasks cid) = some results) :
      RunMove e s (.gathered w) ⟨s.pool.setPhase w k (.writing cid chunk results), s.proc⟩

theorem runMove_of_step (h : e.step s l = some v) : RunMove e s l v := by
  cases l with
  | pool a =>
    simp only [EngineRun.step, Option.ite_none_right_eq_some, Option.map_eq_some_iff] at h
    obtain ⟨ha, p, hp, rfl⟩ := h
    exact .pool ha hp
  | row i latencyMs =>
    simp only [EngineRun.step, Option.bind_eq_some_iff, Option.map_eq_some_iff] at h
    obtain ⟨τ, hτ, act, hn, q, hq, rfl⟩ := h
    cases procMove_of_step hq with
    | row hτ' hs hq' =>
      obtain rfl := Option.some.inj (hτ'.symm.trans hτ)
      exact .row hτ hn hs hq'
  | gathered w =>
    simp only [EngineRun.step, Option.bind_eq_some_iff, running_iff] at h
    obtain ⟨k, ⟨hk, hl⟩, h⟩ := h
    split at h
    · rename_i hp
      simp only [List.contains_iff_mem, Option.ite_none_right_eq_some,
        Option.map_eq_some_iff] at h
      obtain ⟨hw, results, hg, rfl⟩ := h
      exact .gathered hw hk hl hp hg
    · cases h

/-! ## The coroutines -/

theorem follows_next {τ : RowTask} {client : Nat → Outcome} {act : RowAct}
    (h : τ.next client = some act) : τ.follows client act := by
  unfold RowTask.next at h
  cases hs : τ.stage <;> simp only [hs] at h <;> cases h
  · trivial
  · intro st hst
    rw [hs] at hst
    cases hst
    rfl
  · trivial

/-- What a step does to one coroutine. -/
structure Advances (e : EngineRun) (τ τ' : RowTask) : Prop where
  chunkId : τ'.chunkId = τ.chunkId
  settings : τ'.settings = τ.settings
  item : τ'.item = τ.item
  result : ∀ res, τ.result = some res → τ'.result = some res
  outcome : τ'.outcome (e.client τ.item.id) = τ.outcome (e.client τ.item.id)

theorem Advances.refl (e : EngineRun) (τ : RowTask) : Advances e τ τ :=
  ⟨rfl, rfl, rfl, fun _ h => h, rfl⟩

/-- A step of a coroutine leaves the others alone. -/
theorem advances_row {i : Nat} {latencyMs : Int} {τ : RowTask} {act : RowAct} {u : Stage}
    {es : List Effect} {tasks : List RowTask} (hτ : tasks[i]? = some τ)
    (hn : τ.next (e.client τ.item.id) = some act) (hs : τ.step latencyMs act = some (u, es)) :
    List.Forall₂ (Advances e) tasks (tasks.set i { τ with stage := u }) := by
  refine forall₂_set (.refl e) hτ
    ⟨rfl, rfl, rfl, fun res hres => ?_, outcome_step hs (follows_next hn)⟩
  -- a coroutine that moves has not returned
  obtain ⟨⟨text, st, lat, hst⟩, -⟩ := returned_of_result hres
  simp only [RowTask.next, hst] at hn
  cases hn

section advances
variable {xs ys : List RowTask} (h : List.Forall₂ (Advances e) xs ys)
include h

theorem Advances.filter (cid : ChunkId) : List.Forall₂ (Advances e)
    (xs.filter fun τ => τ.chunkId = cid) (ys.filter fun τ => τ.chunkId = cid) := by
  induction h with
  | nil => exact .nil
  | @cons τ τ' xs ys ha h ih =>
    rw [List.filter_cons, List.filter_cons, ha.chunkId]
    split
    · exact .cons ha ih
    · exact ih

theorem Advances.items : ys.map (·.item) = xs.map (·.item) := by
  induction h with
  | nil => rfl
  | cons ha h ih => rw [List.map_cons, List.map_cons, ha.item, ih]

theorem Advances.gathered {results : List ResultRecord} (hg : gathered xs = some results) :
    gathered ys = some results := by
  induction h generalizing results with
  | nil => exact hg
  | cons ha h ih =>
    simp only [Engine.gathered, Option.bind_eq_some_iff, Option.map_eq_some_iff] at hg ⊢
    obtain ⟨res, hres, rest, hrest, rfl⟩ := hg
    exact ⟨res, ha.result res hres, rest, ih hrest, rfl⟩

end advances

/-- What a step is for the process of the coroutines. -/
def procAct (e : EngineRun) (s : RunState) : RunAct → Option ProcAct
  | .pool (.claim _ chunkId chunk) => some (.gather chunkId e.settings chunk)
  | .pool _ | .gathered _ => none
  | .row i latencyMs => s.proc.tasks[i]?.bind fun τ =>
      (τ.next (e.client τ.item.id)).map fun act => .row i act latencyMs

theorem rows_refine (e : EngineRun) (s₀ : PState) :
    (e.system s₀).Refines (process e.maxConcurrency 0) RunState.proc (procAct e) := by
  refine ⟨fun s hs => ?_, fun s l v _ hst => ?_⟩
  · obtain ⟨n, hn, rfl⟩ := hs
    exact ⟨n, hn, rfl⟩
  · cases runMove_of_step hst with
    | @pool a p ha hp => cases a <;> rfl
    | @row i latencyMs τ act v es q hτ hn hs hq =>
      simp only [procAct, hτ, Option.bind_some, hn, Option.map_some]
      show s.proc.step _ = some _
      simp only [Proc.step, hτ, Option.bind_some, hs, hq, Option.map_some]
    | gathered => rfl

/-! ## The workers -/

/-- What an act makes of the phase of worker `w`. -/
inductive PhaseNext (p : PState) (a : Act) (w : WorkerId) (settings : Settings) :
    Phase → Phase → Prop
  | same (phase : Phase) : PhaseNext p a w settings phase phase
  | claim {cid : ChunkId} {chunk : List ClaimedItem} {wake : Int} (ha : a = .claim w cid chunk)
      (hf : cid ∉ p.usedChunks) :
      PhaseNext p a w settings .claiming (.processing cid chunk (.sleeping wake))
  | renew {cid : ChunkId} {chunk : List ClaimedItem} {wake wake' : Int} :
      PhaseNext p a w settings (.processing cid chunk (.sleeping wake))
        (.processing cid chunk (.sleeping wake'))
  | processed {cid : ChunkId} {chunk : List ClaimedItem} {wake : Int}
      {client : Nat → Nat → Outcome} {latencyMs : Nat → Int}
      (ha : a = .processed w client latencyMs) :
      PhaseNext p a w settings (.processing cid chunk (.sleeping wake))
        (.writing cid chunk (processChunk settings chunk client latencyMs))
  | written {cid : ChunkId} {chunk : List ClaimedItem} {results : List ResultRecord} {ref : String}
      (ha : a = .written w) :
      PhaseNext p a w settings (.writing cid chunk results) (.completing cid chunk results ref)
  | complete {cid : ChunkId} {chunk : List ClaimedItem} {results : List ResultRecord}
      {ref : String} {n : Nat} (ha : a = .complete w n) :
      PhaseNext p a w settings (.completing cid chunk results ref) .claiming

/-- The acts of the workers of the run. -/
def EngineRun.ours (e : EngineRun) : Act → Bool
  | .processed w _ _ => e.workers.contains w
  | a => e.owns a

/-- A worker of the run, or one that started in it. -/
structure Member (e : EngineRun) (k : Worker) : Prop where
  job : k.job = e.job
  settings : k.settings = e.settings
  life : k.life = .running ∨ k.life = .left
  heartbeat : ∀ cid chunk, k.phase ≠ .processing cid chunk .failed

theorem member_next {p q : PState} {a : Act} (hm : Move p a q) (ha : e.ours a = true)
    {w : WorkerId} {k : Worker} (hk : p.workers w = some k) (h : Member e k) :
    ∃ k', q.workers w = some k' ∧ Member e k' ∧ PhaseNext p a w e.settings k.phase k'.phase := by
  obtain ⟨k', hk'⟩ := worker_persists hm hk
  refine ⟨k', hk', ?_⟩
  cases turn_of_move hm hk' with
  | same hk₀ =>
    obtain rfl := Option.some.inj (hk₀.symm.trans hk)
    exact ⟨h, .same _⟩
  | start hn => rw [hn] at hk; cases hk
  | renewFails | raise | crash => cases ha
  | leave hk₀ =>
    obtain rfl := Option.some.inj (hk₀.symm.trans hk)
    exact ⟨⟨h.job, h.settings, .inr rfl, h.heartbeat⟩, .same _⟩
  | claim hk₀ _ hp _ hfresh =>
    obtain rfl := Option.some.inj (hk₀.symm.trans hk)
    refine ⟨⟨h.job, h.settings, h.life, by simp⟩, ?_⟩
    rw [hp]
    exact .claim rfl hfresh
  | renew hk₀ _ hp =>
    obtain rfl := Option.some.inj (hk₀.symm.trans hk)
    refine ⟨⟨h.job, h.settings, h.life, by simp⟩, ?_⟩
    rw [hp]
    exact .renew
  | processed hk₀ _ hp =>
    obtain rfl := Option.some.inj (hk₀.symm.trans hk)
    refine ⟨⟨h.job, h.settings, h.life, by simp⟩, ?_⟩
    rw [hp, h.settings]
    exact .processed rfl
  | dropped hk₀ _ hp =>
    obtain rfl := Option.some.inj (hk₀.symm.trans hk)
    exact absurd hp (h.heartbeat _ _)
  | writePart hk₀ =>
    obtain rfl := Option.some.inj (hk₀.symm.trans hk)
    exact ⟨h, .same _⟩
  | written hk₀ _ hp =>
    obtain rfl := Option.some.inj (hk₀.symm.trans hk)
    refine ⟨⟨h.job, h.settings, h.life, by simp⟩, ?_⟩
    rw [hp]
    exact .written rfl
  | complete hk₀ _ hp =>
    obtain rfl := Option.some.inj (hk₀.symm.trans hk)
    refine ⟨⟨h.job, h.settings, h.life, by simp⟩, ?_⟩
    rw [hp]
    exact .complete rfl

/-! ## Each chunk and its coroutines -/

/-- The coroutine is on its way to what `_process_row` computes. -/
structure Computes (e : EngineRun) (τ : RowTask) : Prop where
  settings : τ.settings = e.settings
  outcome : τ.outcome (e.client τ.item.id) = some (attemptLoop e.settings τ.item
    (e.client τ.item.id) (List.range e.settings.retryMaxAttempts) {})

theorem Computes.result {τ : RowTask} (h : Computes e τ) {res : ResultRecord}
    (hr : τ.result = some res) : ∃ text st latencyMs, τ.stage = .returned text st latencyMs ∧
      (res, st) = processRow e.settings τ.item (e.client τ.item.id) latencyMs := by
  obtain ⟨⟨text, st, lat, hs⟩, -⟩ := returned_of_result hr
  have ho := h.outcome
  rw [← h.settings] at ho
  obtain ⟨h1, h2⟩ := result_processRow hs ho
  rw [h.settings] at h1 h2
  exact ⟨text, st, lat, hs, Prod.ext (Option.some.inj (hr.symm.trans h1)) h2⟩

/-- The results of a chunk whose coroutines have returned. -/
theorem gathered_processChunk {tasks : List RowTask} (hc : ∀ τ ∈ tasks, Computes e τ)
    (hn : (tasks.map (·.item.id)).Nodup) {results : List ResultRecord}
    (hg : gathered tasks = some results) :
    ∃ latencyMs, results = processChunk e.settings (tasks.map (·.item)) e.client latencyMs := by
  induction tasks generalizing results with
  | nil =>
    cases hg
    exact ⟨fun _ => 0, rfl⟩
  | cons τ rest ih =>
    simp only [gathered, Option.bind_eq_some_iff, Option.map_eq_some_iff] at hg
    obtain ⟨res, hres, rs, hrs, rfl⟩ := hg
    obtain ⟨hnotin, hn'⟩ := List.nodup_cons.mp hn
    obtain ⟨f, rfl⟩ := ih (fun τ' h => hc τ' (List.mem_cons_of_mem _ h)) hn' hrs
    obtain ⟨text, st, lat, -, hp⟩ := (hc τ List.mem_cons_self).result hres
    refine ⟨fun id => if id = τ.item.id then lat else f id, ?_⟩
    simp only [processChunk, List.map_cons, List.map_map, if_pos, ← hp]
    refine congrArg (res :: ·) (List.map_congr_left fun τ' hτ' => ?_)
    have hne : τ'.item.id ≠ τ.item.id := by
      intro he
      exact hnotin (List.mem_map.mpr ⟨τ', hτ', he⟩)
    simp only [Function.comp, if_neg hne]

/-- The coroutines of the chunk that the worker holds. -/
def ChunkOk (p : Proc) (k : Worker) : Prop :=
  ∀ cid, k.phase.chunkId = some cid → (p.chunkTasks cid).map (·.item) = k.phase.chunk ∧
    ∀ rs, k.phase.results = some rs → gathered (p.chunkTasks cid) = some rs

structure Working (e : EngineRun) (s₀ : PState) (s : RunState) : Prop where
  reachable : pool.Reachable s.pool
  crew : ∀ w ∈ e.workers, ∃ k, s.pool.workers w = some k ∧ Member e k
  chunks : ∀ w ∈ e.workers, ∀ k, s.pool.workers w = some k → ChunkOk s.proc k
  computes : ∀ τ ∈ s.proc.tasks, Computes e τ
  used : ∀ τ ∈ s.proc.tasks, τ.chunkId ∈ s.pool.usedChunks ∧ τ.chunkId ∉ s₀.usedChunks
  grown : s₀.usedChunks ⊆ s.pool.usedChunks

variable {s₀ : PState}

theorem Working.member (h : Working e s₀ s) {w : WorkerId} (hw : w ∈ e.workers) {k : Worker}
    (hk : s.pool.workers w = some k) : Member e k := by
  obtain ⟨k', hk', hmem⟩ := h.crew w hw
  obtain rfl := Option.some.inj (hk'.symm.trans hk)
  exact hmem

/-- What a worker of the run gathers is the processed chunk. -/
theorem Working.processed (h : Working e s₀ s) {w : WorkerId} {k : Worker} {cid : ChunkId}
    {chunk : List ClaimedItem} {wake : Int} {results : List ResultRecord} (hw : w ∈ e.workers)
    (hk : s.pool.workers w = some k) (hl : k.life = .running)
    (hp : k.phase = .processing cid chunk (.sleeping wake))
    (hg : gathered (s.proc.chunkTasks cid) = some results) : ∃ latencyMs,
      pool.step s.pool (.processed w e.client latencyMs)
        (s.pool.setPhase w k (.writing cid chunk results)) := by
  obtain ⟨hitems, -⟩ := h.chunks w hw k hk cid (by rw [hp]; rfl)
  rw [hp] at hitems
  have hn := (owners_reachable h.reachable).nodup w k hk
  rw [hp] at hn
  change (chunk.map _).Nodup at hn
  change _ = chunk at hitems
  rw [← hitems, List.map_map] at hn
  have hc : ∀ τ ∈ s.proc.chunkTasks cid, Computes e τ :=
    fun τ hτ => h.computes τ (List.mem_filter.mp hτ).1
  obtain ⟨f, rfl⟩ := gathered_processChunk hc hn hg
  refine ⟨f, ?_⟩
  have hrun : s.pool.running w = some k := running_iff.mpr ⟨hk, hl⟩
  rw [hitems]
  show step s.pool _ = _
  simp only [step, hrun, Option.bind_some, hp, (h.member hw hk).settings]

/-- A claim adds no coroutine to an old chunk. -/
theorem spawn_old {a : Act} {p : PState} (hm : Move s.pool a p) {cid : ChunkId}
    (hu : cid ∈ s.pool.usedChunks) :
    (e.spawn s.proc a).chunkTasks cid = s.proc.chunkTasks cid := by
  cases hm with
  | leave => simp [EngineRun.spawn, Proc.gather, Proc.chunkTasks]
  | @claim _ _ cid' chunk _ _ _ _ hfresh =>
    have hne : cid' ≠ cid := by
      rintro rfl
      exact hfresh hu
    simp [EngineRun.spawn, Proc.gather, Proc.chunkTasks, hne]
  | _ => rfl

theorem gather_new {p : Proc} {cid : ChunkId} (h : ∀ τ ∈ p.tasks, τ.chunkId ≠ cid)
    (settings : Settings) (chunk : List ClaimedItem) :
    ((p.gather cid settings chunk).chunkTasks cid).map (·.item) = chunk := by
  have hold : p.tasks.filter (fun τ => τ.chunkId = cid) = [] :=
    List.filter_eq_nil_iff.mpr fun τ hτ => by simpa using h τ hτ
  simp [Proc.gather, Proc.chunkTasks, hold, List.filter_map, Function.comp_def]

/-- A coroutine of the new state: an old one, or one of the chunk just claimed. -/
theorem mem_spawn {p : Proc} {a : Act} {τ : RowTask} (h : τ ∈ (e.spawn p a).tasks) :
    τ ∈ p.tasks ∨ ∃ w cid chunk, a = .claim w cid chunk ∧
      ∃ c ∈ chunk, τ = ⟨cid, e.settings, c, .waiting⟩ := by
  cases a with
  | claim w cid chunk =>
    rcases List.mem_append.mp h with h | h
    · exact .inl h
    · obtain ⟨c, hc, rfl⟩ := List.mem_map.mp h
      exact .inr ⟨w, cid, chunk, rfl, c, hc, rfl⟩
  | _ => exact .inl h

theorem spawn_subset (p : Proc) (a : Act) : p.tasks ⊆ (e.spawn p a).tasks := by
  cases a with
  | claim => exact fun τ hτ => List.mem_append_left _ hτ
  | _ => exact fun τ hτ => hτ

theorem ours_of_owns {a : Act} (h : e.owns a = true) : e.ours a = true := by
  cases a <;> first | exact h | cases h

theorem usedChunks_next {p q : PState} {a : Act} (hm : Move p a q) :
    p.usedChunks ⊆ q.usedChunks := by
  cases hm with
  | claim => exact fun _ h => List.mem_cons_of_mem _ h
  | _ => exact fun _ h => h

theorem chunkOk_next {a : Act} {p : PState} (h : Working e s₀ s) (hst : pool.step s.pool a p)
    {w : WorkerId} {k k' : Worker} (hk : s.pool.workers w = some k) (hok : ChunkOk s.proc k)
    (hres : ∀ client latencyMs, a ≠ .processed w client latencyMs)
    (hn : PhaseNext s.pool a w e.settings k.phase k'.phase) : ChunkOk (e.spawn s.proc a) k' := by
  have hm := move_of_step hst
  have hused := ((books_reachable h.reachable).held w k hk).used
  intro cid hc
  generalize hph : k.phase = ph at hn
  generalize hph' : k'.phase = ph' at hn hc ⊢
  have hold := hok cid
  rw [hph] at hold hused
  cases hn with
  | same =>
    rw [spawn_old hm (hused cid hc)]
    exact hold hc
  | claim ha hf =>
    cases hc
    subst ha
    have hnew : ∀ τ ∈ s.proc.tasks, τ.chunkId ≠ cid := by
      rintro τ hτ rfl
      exact hf (h.used τ hτ).1
    exact ⟨gather_new hnew _ _, fun rs hrs => by cases hrs⟩
  | renew | written =>
    rw [spawn_old hm (hused cid hc)]
    exact hold hc
  | processed ha => exact absurd ha (hres _ _)
  | complete => cases hc

theorem working_step (h : Working e s₀ s) (hm : RunMove e s l v) : Working e s₀ v := by
  cases hm with
  | @pool a p ha hst =>
    have hm := move_of_step hst
    refine ⟨h.reachable.step hst, fun w hw => ?_, fun w hw k' hk' => ?_, fun τ hτ => ?_,
      fun τ hτ => ?_, fun c hc => usedChunks_next hm (h.grown hc)⟩
    · obtain ⟨k, hk, hmem⟩ := h.crew w hw
      obtain ⟨k', hk', hmem', -⟩ := member_next hm (ours_of_owns ha) hk hmem
      exact ⟨k', hk', hmem'⟩
    · obtain ⟨k, hk, hmem⟩ := h.crew w hw
      obtain ⟨k₂, hk₂, -, hn⟩ := member_next hm (ours_of_owns ha) hk hmem
      obtain rfl := Option.some.inj (hk₂.symm.trans hk')
      refine chunkOk_next h hst hk (h.chunks w hw k hk) ?_ hn
      rintro client lat rfl
      cases ha
    · rcases mem_spawn hτ with hτ | ⟨w, cid, chunk, -, c, -, rfl⟩
      · exact h.computes τ hτ
      · exact ⟨rfl, rfl⟩
    · rcases mem_spawn hτ with hτ | ⟨w, cid, chunk, rfl, c, hc, rfl⟩
      · exact ⟨usedChunks_next hm (h.used τ hτ).1, (h.used τ hτ).2⟩
      · cases hm with
        | leave => cases hc
        | claim _ _ _ _ hfresh => exact ⟨List.mem_cons_self, fun hm => hfresh (h.grown hm)⟩
  | @row i lat τ act u es q hτ hn hs hq =>
    have hadv := advances_row hτ hn hs
    refine ⟨h.reachable, h.crew, fun w hw k hk cid hc => ?_, fun τ' hτ' => ?_, fun τ' hτ' => ?_,
      h.grown⟩
    · obtain ⟨h1, h2⟩ := h.chunks w hw k hk cid hc
      have hf := Advances.filter hadv cid
      exact ⟨(Advances.items hf).trans h1, fun rs hrs => Advances.gathered hf (h2 rs hrs)⟩
    · obtain ⟨τ₀, hτ₀, ha⟩ := forall₂_mem_right hadv hτ'
      obtain ⟨h1, h2⟩ := h.computes τ₀ hτ₀
      refine ⟨ha.settings.trans h1, ?_⟩
      rw [ha.item, ha.outcome]
      exact h2
    · obtain ⟨τ₀, hτ₀, ha⟩ := forall₂_mem_right hadv hτ'
      rw [ha.chunkId]
      exact h.used τ₀ hτ₀
  | @gathered w k cid chunk wake results hw hk hl hp hg =>
    obtain ⟨lat, hst⟩ := h.processed hw hk hl hp hg
    have hmem := h.member hw hk
    refine ⟨h.reachable.step hst, fun x hx => ?_, fun x hx k' hk' => ?_, h.computes, h.used,
      h.grown⟩
    · by_cases hne : x = w
      · subst hne
        exact ⟨_, setWorker_same _ _ _, hmem.job, hmem.settings, hmem.life, by simp⟩
      · obtain ⟨k', hk', hmem'⟩ := h.crew x hx
        exact ⟨k', (setWorker_ne hne _).trans hk', hmem'⟩
    · rcases of_setWorker hk' with ⟨rfl, rfl⟩ | ⟨-, hk'⟩
      · intro cid' hc
        cases hc
        refine ⟨?_, fun rs hrs => ?_⟩
        · have := (h.chunks x hw k hk cid (by rw [hp]; rfl)).1
          rw [hp] at this
          exact this
        · cases hrs
          exact hg
      · exact h.chunks x hx k' hk'

/-- Every step of the run moves one coroutine or is a step of the worker pool. -/
theorem pool_step (h : Working e s₀ s) (hm : RunMove e s l v) :
    (v.pool = s.pool ∧ List.Forall₂ (Advances e) s.proc.tasks v.proc.tasks) ∨
    ∃ a, e.ours a = true ∧ pool.step s.pool a v.pool ∧ v.proc = e.spawn s.proc a := by
  cases hm with
  | pool ha hst => exact .inr ⟨_, ours_of_owns ha, hst, rfl⟩
  | row hτ hn hs hq => exact .inl ⟨rfl, advances_row hτ hn hs⟩
  | gathered hw hk hl hp hg =>
    obtain ⟨lat, hst⟩ := h.processed hw hk hl hp hg
    exact .inr ⟨.processed _ _ lat, List.contains_iff_mem.mpr hw, hst, rfl⟩

end moves

/-! ## Where a run begins -/

/-- A job without CLAIMED rows, and new workers. -/
structure Startable (e : EngineRun) (s₀ : PState) : Prop where
  reachable : pool.Reachable s₀
  fresh : ∀ w ∈ e.workers, s₀.workers w = none
  unclaimed : ∀ r ∈ s₀.items.rows, r.jobId = e.job → r.status ≠ .claimed
  size : e.workers.length = e.settings.workerPoolSize
  poolSize : 1 ≤ e.settings.workerPoolSize
  chunkSize : 1 ≤ e.settings.chunkSize

variable {e : EngineRun} {s₀ : PState}

theorem working_init (h : Startable e s₀) (n : Nat) : Working e s₀ ⟨e.started s₀, ⟨n, 0, []⟩⟩ := by
  have hstart : pool.step s₀ (.start e.workers e.job e.settings) (e.started s₀) := if_pos h.fresh
  have hmem : ∀ w ∈ e.workers, (e.started s₀).workers w =
      some { job := e.job, settings := e.settings } := fun w hw => if_pos hw
  refine ⟨h.reachable.step hstart, fun w hw => ⟨_, hmem w hw, rfl, rfl, .inl rfl, by simp⟩,
    fun w hw k hk cid hc => ?_, fun τ hτ => ?_, fun τ hτ => ?_, fun c hc => hc⟩
  · obtain rfl := Option.some.inj ((hmem w hw).symm.trans hk)
    cases hc
  · cases hτ
  · cases hτ

end BatchSystem.Engine
