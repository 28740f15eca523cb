import BatchSystem.Engine.Worker
import BatchSystem.Queue.Transactions
import Mathlib.Data.Fintype.EquivFin

/-!
# The worker pool

Any number of workers of any number of processes over one queue table and one
result store. A step is a clock advance, an ingest's `bulk_insert`, or what one
worker does between two awaits. Workers may stop anywhere, by an exception
(`raise`) or with their process (`crash`).

Worker ids and chunk ids are drawn at random by the code; here they are fresh.
A file that is being written shows any prefix of its contents (`writePart`).

* `Move`, `move_of_step`: what each step requires and does, once.
* `pool_refines`: on the table every step is a transaction of the queue or
  nothing.
-/
namespace BatchSystem.Engine

open BatchSystem.Core Domain Queue Storage PromptItems

structure PState where
  now : Int
  items : PromptItems
  files : List ChunkFile
  workers : WorkerId → Option Worker
  usedChunks : List ChunkId

/-- One step of the pool, with what the call returned or raised. -/
inductive Act where
  | tick (d : Nat)
  | bulkInsert (job : JobId) (items : List PromptItem) (failed : List ResultRecord)
  | start (ws : List WorkerId) (job : JobId) (settings : Settings)
  | claim (w : WorkerId) (chunkId : ChunkId) (chunk : List ClaimedItem)
  | renew (w : WorkerId)
  | renewFails (w : WorkerId)
  | processed (w : WorkerId) (client : Nat → Nat → Outcome) (latencyMs : Nat → Int)
  | writePart (w : WorkerId) (n : Nat) (torn : Bool)
  | written (w : WorkerId)
  | complete (w : WorkerId) (count : Nat)
  | raise (w : WorkerId)
  | crash (ws : List WorkerId)

namespace PState

def init (now : Int) : PState := ⟨now, .empty, [], fun _ => none, []⟩

def queue (s : PState) : QState := ⟨s.now, s.items⟩

def setWorker (s : PState) (w : WorkerId) (k : Worker) : PState :=
  { s with workers := fun x => if x = w then some k else s.workers x }

def setPhase (s : PState) (w : WorkerId) (k : Worker) (phase : Phase) : PState :=
  s.setWorker w { k with phase }

def setLife (s : PState) (w : WorkerId) (k : Worker) (life : Life) : PState :=
  s.setWorker w { k with life }

/-- Worker `w`, if it is running. -/
def running (s : PState) (w : WorkerId) : Option Worker :=
  (s.workers w).filter fun k => k.life = .running

theorem running_iff {s : PState} {w : WorkerId} {k : Worker} :
    s.running w = some k ↔ s.workers w = some k ∧ k.life = .running := by
  simp [running, Option.filter_eq_some_iff]

/-- A crash ends the workers that are running. -/
def stopAll (s : PState) (ws : List WorkerId) : PState :=
  { s with
    workers := fun x =>
      if x ∈ ws then
        (s.workers x).map fun k => if k.life = .running then { k with life := .crashed s.now } else k
      else s.workers x }

end PState

open PState

/-- mirrors app/engine/worker.py:56-66,73 -/
def claimStep (s : PState) (w : WorkerId) (k : Worker) (chunkId : ChunkId)
    (chunk : List ClaimedItem) : Option PState :=
  let r := claimChunk s.items s.now k.job w k.settings.chunkSize k.settings.leaseTtlSeconds
  if chunk.isPerm r.2 then
    if chunk = [] then some ({ s with items := r.1 }.setLife w k .left)
    else if chunkId ∈ s.usedChunks then none
    else some ({ s with items := r.1, usedChunks := chunkId :: s.usedChunks }.setPhase w k
      (.processing chunkId chunk (.sleeping (s.now + makeInterval k.settings.heartbeatSeconds))))
  else none

def step (s : PState) : Act → Option PState
  | .tick d => some { s with now := s.now + d }
  | .bulkInsert job items failed => some { s with items := (bulkInsert s.items job items failed).1 }
  | .start ws job settings =>
    if ∀ w ∈ ws, s.workers w = none then
      some { s with workers := fun x => if x ∈ ws then some { job, settings } else s.workers x }
    else none
  | .claim w chunkId chunk =>
    (s.running w).bind fun k => match k.phase with
      | .claiming => claimStep s w k chunkId chunk
      | _ => none
  -- mirrors app/engine/worker.py:180-183
  | .renew w =>
    (s.running w).bind fun k => match k.phase with
      | .processing chunkId chunk (.sleeping wake) =>
        if wake ≤ s.now then
          some ({ s with items := renewLease s.items s.now w k.settings.leaseTtlSeconds }.setPhase w
            k (.processing chunkId chunk
              (.sleeping (s.now + makeInterval k.settings.heartbeatSeconds))))
        else none
      | _ => none
  | .renewFails w =>
    (s.running w).bind fun k => match k.phase with
      | .processing chunkId chunk (.sleeping wake) =>
        if wake ≤ s.now then some (s.setPhase w k (.processing chunkId chunk .failed)) else none
      | _ => none
  -- `await heartbeat` raises what ended the heartbeat; mirrors app/engine/worker.py:76-79
  | .processed w client latencyMs =>
    (s.running w).bind fun k => match k.phase with
      | .processing chunkId chunk (.sleeping _) =>
        some (s.setPhase w k
          (.writing chunkId chunk (processChunk k.settings chunk client latencyMs)))
      | .processing _ _ .failed => some (s.setLife w k (.raised s.now))
      | _ => none
  | .writePart w n torn =>
    (s.running w).bind fun k => match k.phase with
      | .writing chunkId _ results =>
        some { s with files := writePart s.files k.job chunkId results n torn }
      | _ => none
  -- mirrors app/engine/worker.py:81
  | .written w =>
    (s.running w).bind fun k => match k.phase with
      | .writing chunkId chunk results =>
        let r := writeChunk s.files k.job chunkId results
        some ({ s with files := r.1 }.setPhase w k (.completing chunkId chunk results r.2))
      | _ => none
  -- mirrors app/engine/worker.py:82
  | .complete w count =>
    (s.running w).bind fun k => match k.phase with
      | .completing _ _ results ref =>
        let r := completeItems s.items w ref results
        if count = r.2 then some ({ s with items := r.1 }.setPhase w k .claiming) else none
      | _ => none
  | .raise w => (s.running w).map fun k => s.setLife w k (.raised s.now)
  | .crash ws => some (s.stopAll ws)

def pool : LTS PState Act := LTS.ofFn (fun s => ∃ now, s = .init now) step

/-! ## What a step requires and does -/

inductive Move (s : PState) : Act → PState → Prop
  | tick (d : Nat) : Move s (.tick d) { s with now := s.now + d }
  | bulkInsert (job : JobId) (items : List PromptItem) (failed : List ResultRecord) :
      Move s (.bulkInsert job items failed)
        { s with items := (Queue.bulkInsert s.items job items failed).1 }
  | start {ws : List WorkerId} {job : JobId} {settings : Settings}
      (h : ∀ w ∈ ws, s.workers w = none) :
      Move s (.start ws job settings)
        { s with workers := fun x => if x ∈ ws then some { job, settings } else s.workers x }
  /-- An empty claim: the worker returns. -/
  | leave {w : WorkerId} {k : Worker} {chunkId : ChunkId} (hk : s.workers w = some k)
      (hl : k.life = .running) (hp : k.phase = .claiming)
      (he : claimed s.items k.job k.settings.chunkSize s.now = []) :
      Move s (.claim w chunkId []) (s.setLife w k .left)
  | claim {w : WorkerId} {k : Worker} {chunkId : ChunkId} {chunk : List ClaimedItem}
      (hk : s.workers w = some k) (hl : k.life = .running) (hp : k.phase = .claiming)
      (hne : chunk ≠ []) (hfresh : chunkId ∉ s.usedChunks)
      (hperm : chunk.isPerm (claimChunk s.items s.now k.job w k.settings.chunkSize
        k.settings.leaseTtlSeconds).2 = true) :
      Move s (.claim w chunkId chunk)
        ({ s with
          items := (claimChunk s.items s.now k.job w k.settings.chunkSize
            k.settings.leaseTtlSeconds).1,
          usedChunks := chunkId :: s.usedChunks }.setPhase w k
            (.processing chunkId chunk
              (.sleeping (s.now + makeInterval k.settings.heartbeatSeconds))))
  | renew {w : WorkerId} {k : Worker} {chunkId : ChunkId} {chunk : List ClaimedItem} {wake : Int}
      (hk : s.workers w = some k) (hl : k.life = .running)
      (hp : k.phase = .processing chunkId chunk (.sleeping wake)) (hw : wake ≤ s.now) :
      Move s (.renew w)
        ({ s with items := renewLease s.items s.now w k.settings.leaseTtlSeconds }.setPhase w k
          (.processing chunkId chunk
            (.sleeping (s.now + makeInterval k.settings.heartbeatSeconds))))
  | renewFails {w : WorkerId} {k : Worker} {chunkId : ChunkId} {chunk : List ClaimedItem}
      {wake : Int} (hk : s.workers w = some k) (hl : k.life = .running)
      (hp : k.phase = .processing chunkId chunk (.sleeping wake)) (hw : wake ≤ s.now) :
      Move s (.renewFails w) (s.setPhase w k (.processing chunkId chunk .failed))
  | processed {w : WorkerId} {k : Worker} {chunkId : ChunkId} {chunk : List ClaimedItem}
      {wake : Int} {client : Nat → Nat → Outcome} {latencyMs : Nat → Int}
      (hk : s.workers w = some k) (hl : k.life = .running)
      (hp : k.phase = .processing chunkId chunk (.sleeping wake)) :
      Move s (.processed w client latencyMs)
        (s.setPhase w k (.writing chunkId chunk (processChunk k.settings chunk client latencyMs)))
  /-- The results of a worker whose heartbeat failed are dropped. -/
  | dropped {w : WorkerId} {k : Worker} {chunkId : ChunkId} {chunk : List ClaimedItem}
      {client : Nat → Nat → Outcome} {latencyMs : Nat → Int}
      (hk : s.workers w = some k) (hl : k.life = .running)
      (hp : k.phase = .processing chunkId chunk .failed) :
      Move s (.processed w client latencyMs) (s.setLife w k (.raised s.now))
  | writePart {w : WorkerId} {k : Worker} {chunkId : ChunkId} {chunk : List ClaimedItem}
      {results : List ResultRecord} (n : Nat) (torn : Bool)
      (hk : s.workers w = some k) (hl : k.life = .running)
      (hp : k.phase = .writing chunkId chunk results) :
      Move s (.writePart w n torn)
        { s with files := Storage.writePart s.files k.job chunkId results n torn }
  | written {w : WorkerId} {k : Worker} {chunkId : ChunkId} {chunk : List ClaimedItem}
      {results : List ResultRecord} (hk : s.workers w = some k) (hl : k.life = .running)
      (hp : k.phase = .writing chunkId chunk results) :
      Move s (.written w)
        ({ s with files := (writeChunk s.files k.job chunkId results).1 }.setPhase w k
          (.completing chunkId chunk results (chunkRef k.job chunkId)))
  | complete {w : WorkerId} {k : Worker} {chunkId : ChunkId} {chunk : List ClaimedItem}
      {results : List ResultRecord} {ref : String} (hk : s.workers w = some k)
      (hl : k.life = .running) (hp : k.phase = .completing chunkId chunk results ref) :
      Move s (.complete w (completeItems s.items w ref results).2)
        ({ s with items := (completeItems s.items w ref results).1 }.setPhase w k .claiming)
  | raise {w : WorkerId} {k : Worker} (hk : s.workers w = some k) (hl : k.life = .running) :
      Move s (.raise w) (s.setLife w k (.raised s.now))
  | crash (ws : List WorkerId) : Move s (.crash ws) (s.stopAll ws)

/-- A claim without rows leaves the table alone. -/
theorem claimChunk_empty {t : PromptItems} {now : Int} {job : JobId} {w : WorkerId} {size : Nat}
    {secs : Int} (h : claimed t job size now = []) : (claimChunk t now job w size secs).1 = t := by
  have hr := claimChunk_rows t now job w size secs
  rw [h] at hr
  have hrows : (claimChunk t now job w size secs).1.rows = t.rows := by simpa using hr
  obtain ⟨rows, nextId, h1, h2, h3⟩ := t
  simp only [claimChunk, update, mapRows] at hrows ⊢
  congr 1

theorem move_of_step {s v : PState} {l : Act} (h : step s l = some v) : Move s l v := by
  cases l with
  | tick d => simp only [step, Option.some.injEq] at h; subst h; exact .tick d
  | bulkInsert job items failed =>
    simp only [step, Option.some.injEq] at h; subst h; exact .bulkInsert job items failed
  | start ws job settings =>
    simp only [step, Option.ite_none_right_eq_some, Option.some.injEq] at h
    obtain ⟨hf, rfl⟩ := h
    exact .start hf
  | claim w chunkId chunk =>
    simp only [step, Option.bind_eq_some_iff, running_iff] at h
    obtain ⟨k, ⟨hk, hl⟩, h⟩ := h
    split at h
    · rename_i hp
      simp only [claimStep, Option.ite_none_right_eq_some] at h
      obtain ⟨hperm, h⟩ := h
      split at h
      · rename_i hne
        subst hne
        have he : claimed s.items k.job k.settings.chunkSize s.now = [] := by
          have := (List.isPerm_iff.mp hperm).length_eq
          simpa using this.symm
        rw [claimChunk_empty he] at h
        cases h
        exact .leave hk hl hp he
      · rename_i hne
        simp only [Option.ite_none_left_eq_some, Option.some.injEq] at h
        obtain ⟨hfresh, rfl⟩ := h
        exact .claim hk hl hp hne hfresh hperm
    · cases h
  | renew w =>
    simp only [step, Option.bind_eq_some_iff, running_iff] at h
    obtain ⟨k, ⟨hk, hl⟩, h⟩ := h
    split at h
    · rename_i hp
      simp only [Option.ite_none_right_eq_some, Option.some.injEq] at h
      obtain ⟨hw, rfl⟩ := h
      exact .renew hk hl hp hw
    · cases h
  | renewFails w =>
    simp only [step, Option.bind_eq_some_iff, running_iff] at h
    obtain ⟨k, ⟨hk, hl⟩, h⟩ := h
    split at h
    · rename_i hp
      simp only [Option.ite_none_right_eq_some, Option.some.injEq] at h
      obtain ⟨hw, rfl⟩ := h
      exact .renewFails hk hl hp hw
    · cases h
  | processed w client latencyMs =>
    simp only [step, Option.bind_eq_some_iff, running_iff] at h
    obtain ⟨k, ⟨hk, hl⟩, h⟩ := h
    split at h
    · rename_i hp; cases h; exact .processed hk hl hp
    · rename_i hp; cases h; exact .dropped hk hl hp
    · cases h
  | writePart w n torn =>
    simp only [step, Option.bind_eq_some_iff, running_iff] at h
    obtain ⟨k, ⟨hk, hl⟩, h⟩ := h
    split at h
    · rename_i hp; cases h; exact .writePart n torn hk hl hp
    · cases h
  | written w =>
    simp only [step, Option.bind_eq_some_iff, running_iff] at h
    obtain ⟨k, ⟨hk, hl⟩, h⟩ := h
    split at h
    · rename_i hp; cases h; exact .written hk hl hp
    · cases h
  | complete w count =>
    simp only [step, Option.bind_eq_some_iff, running_iff] at h
    obtain ⟨k, ⟨hk, hl⟩, h⟩ := h
    split at h
    · rename_i hp
      simp only [Option.ite_none_right_eq_some, Option.some.injEq] at h
      obtain ⟨rfl, rfl⟩ := h
      exact .complete hk hl hp
    · cases h
  | raise w =>
    simp only [step, Option.map_eq_some_iff, running_iff] at h
    obtain ⟨k, ⟨hk, hl⟩, rfl⟩ := h
    exact .raise hk hl
  | crash ws => simp only [step, Option.some.injEq] at h; subst h; exact .crash ws

/-! ## What is possible -/

/-- Random ids do not run out. -/
theorem exists_fresh (used : List ChunkId) : ∃ cid : ChunkId, cid ∉ used := by
  have hinj : Function.Injective fun n : Nat =>
      (⟨String.ofList (List.replicate n 'c'), by simp⟩ : ChunkId) := by
    intro m n h
    have hl := congrArg (fun c : ChunkId => c.name.toList.length) h
    simpa using hl
  have := Infinite.of_injective _ hinj
  obtain ⟨cid, hc⟩ := Infinite.exists_notMem_finset used.toFinset
  exact ⟨cid, fun hm => hc (List.mem_toFinset.mpr hm)⟩

/-- A worker that asks for work gets what there is. -/
theorem claim_possible {s : PState} {w : WorkerId} {k : Worker} (hk : s.workers w = some k)
    (hl : k.life = .running) (hp : k.phase = .claiming) :
    ∃ cid v, pool.step s (.claim w cid (claimChunk s.items s.now k.job w k.settings.chunkSize
      k.settings.leaseTtlSeconds).2) v := by
  obtain ⟨cid, hfresh⟩ := exists_fresh s.usedChunks
  have hrun : s.running w = some k := running_iff.mpr ⟨hk, hl⟩
  refine ⟨cid, Option.isSome_iff_exists.mp ?_⟩
  simp only [step, hrun, Option.bind_some, hp, claimStep]
  rw [if_pos (List.isPerm_iff.mpr (List.Perm.refl _)), if_neg hfresh]
  split <;> rfl

end BatchSystem.Engine
