import BatchSystem.Engine.Owner
import BatchSystem.Ingest.Ingestor
import BatchSystem.Service.JobRepository

/-!
# Executions

`JobService._execute` and `BatchEngine.run` around the worker pool, in any
number of processes. An `Execution` is one run of `_execute` (scheduled by
`submit` or by `resume_active`) or of a standalone `run_worker.py`, with the
settings of its process; `Pc` names the awaits at which it stands. The contents
of the input file come with the step that starts to read it, since a resumed
execution reads the file again.

* `Change`, `change_of_step`: what each step requires and does, once.
* `system_refines`: every step is one step of the worker pool or leaves it alone.
-/
namespace BatchSystem.Service

open BatchSystem.Core Domain Queue Engine Ingest

abbrev ExecId := Nat

/-- Where an execution stands. mirrors app/services/job_service.py:103-113 and
app/engine/batch_engine.py:44-67 -/
inductive Pc where
  | created
  /-- The `bulk_insert` calls that are left, and the total for `set_total`. -/
  | ingesting (rest : List (List PromptItem × List ResultRecord)) (total : Nat)
  | ingested
  | starting
  | running
  | gathered
  | finished
  | failing (msg : String)
  | failed
  | raised
  | dead
  deriving DecidableEq

/-- The execution is over. -/
def Pc.ended : Pc → Bool
  | .finished | .failed | .raised | .dead => true
  | _ => false

/-- `engine.run` has not returned. -/
def Pc.gathering : Pc → Bool
  | .running | .gathered => true
  | _ => false

structure Execution where
  job : JobId
  settings : Settings
  standalone : Bool
  pc : Pc
  workers : List WorkerId := []
  deriving DecidableEq

structure SState where
  pool : PState
  jobs : Jobs
  execs : ExecId → Option Execution

inductive SAct where
  | submit (e : ExecId) (job : JobId) (inputPath : String) (model : Option String)
      (settings : Settings)
  | resume (es : List ExecId) (settings : Settings)
  | runWorker (e : ExecId) (job : JobId) (settings : Settings)
  | setIngesting (e : ExecId) (elements : List Json)
  | flush (e : ExecId)
  | setTotal (e : ExecId)
  | setRunning (e : ExecId)
  | engineStart (e : ExecId) (ws : List WorkerId)
  | gathered (e : ExecId)
  | setCompleted (e : ExecId)
  | gatherRaises (e : ExecId) (w : WorkerId) (msg : String)
  | raise (e : ExecId) (msg : String)
  | setFailed (e : ExecId)
  | crash (es : List ExecId)
  | worker (a : Act)

namespace SState

def init (now : Int) : SState := ⟨.init now, .empty, fun _ => none⟩

def setExec (s : SState) (e : ExecId) (x : Execution) : SState :=
  { s with execs := fun y => if y = e then some x else s.execs y }

def setPc (s : SState) (e : ExecId) (x : Execution) (pc : Pc) : SState :=
  s.setExec e { x with pc }

/-- The workers of the executions `es`. -/
def workersOf (s : SState) (es : List ExecId) : List WorkerId :=
  es.flatMap fun e => ((s.execs e).map Execution.workers).getD []

/-- A crash ends the executions that are not over. -/
def stopExecs (s : SState) (es : List ExecId) : SState :=
  { s with
    execs := fun e =>
      if e ∈ es then (s.execs e).map fun x => if x.pc.ended then x else { x with pc := .dead }
      else s.execs e }

end SState

open SState

/-- `req.model or settings.llm_model`. -/
def modelOr (model : Option String) (settings : Settings) : String :=
  match model with
  | none => settings.llmModel
  | some m => if m = "" then settings.llmModel else m

/-- mirrors app/services/job_service.py:71-78 -/
def newJob (job : JobId) (inputPath : String) (model : Option String) (settings : Settings) :
    JobRow :=
  { id := job, state := .pending, inputPath, model := modelOr model settings }

/-- The execution that `_execute` begins. -/
def newExecution (job : JobId) (settings : Settings) : Execution :=
  { job, settings, standalone := false, pc := .created }

/-- Where an exception leads: `_execute` records it, `run_worker.py` ends. -/
def Execution.except (x : Execution) (msg : String) : Pc :=
  if x.standalone then .raised else .failing msg

/-- The task of the worker has returned. -/
def hasLeft (p : PState) (w : WorkerId) : Bool := (p.workers w).any fun k => k.life = .left

/-- The task of the worker has ended by an exception. -/
def hasRaised (p : PState) (w : WorkerId) : Bool :=
  (p.workers w).any fun k => match k.life with
    | .raised _ => true
    | _ => false

/-- The steps that workers and the clock take by themselves. -/
def byWorker : Act → Bool
  | .bulkInsert .. | .start .. | .crash _ => false
  | _ => true

variable (text : Json → String)

def sysStep (s : SState) : SAct → Option SState
  -- mirrors app/services/job_service.py:65-85
  | .submit e job inputPath model settings =>
    if s.execs e = none then
      (s.jobs.create (newJob job inputPath model settings)).map fun jobs =>
        { s with jobs }.setExec e (newExecution job settings)
    else none
  -- mirrors app/services/job_service.py:87-99
  | .resume es settings =>
    if es.length = s.jobs.listActive.length ∧ es.Nodup ∧ ∀ e ∈ es, s.execs e = none then
      some { s with
        execs := fun e => match (es.zip s.jobs.listActive).lookup e with
          | some (job, _) => some (newExecution job settings)
          | none => s.execs e }
    else none
  | .runWorker e job settings =>
    if s.execs e = none then
      some (s.setExec e { job, settings, standalone := true, pc := .starting })
    else none
  -- mirrors app/services/job_service.py:104-105
  | .setIngesting e elements =>
    (s.execs e).bind fun x => match x.pc with
      | .created =>
        let st := ingestLoop text (buildValidationPipeline x.settings) elements
        some ({ s with jobs := s.jobs.setState x.job .ingesting none }.setPc e x
          (.ingesting st.flushed st.total))
      | _ => none
  -- mirrors app/services/ingestor.py:61-65
  | .flush e =>
    (s.execs e).bind fun x => match x.pc with
      | .ingesting (b :: rest) total =>
        (Engine.step s.pool (.bulkInsert x.job b.1 b.2)).map fun pool =>
          { s with pool }.setPc e x (.ingesting rest total)
      | _ => none
  -- mirrors app/services/ingestor.py:99
  | .setTotal e =>
    (s.execs e).bind fun x => match x.pc with
      | .ingesting [] total =>
        some ({ s with jobs := s.jobs.setTotal x.job total }.setPc e x .ingested)
      | _ => none
  -- mirrors app/services/job_service.py:106
  | .setRunning e =>
    (s.execs e).bind fun x => match x.pc with
      | .ingested =>
        some ({ s with jobs := s.jobs.setState x.job .running none }.setPc e x .starting)
      | _ => none
  -- mirrors app/engine/batch_engine.py:44-65
  | .engineStart e ws =>
    (s.execs e).bind fun x => match x.pc with
      | .starting =>
        if ws.length = x.settings.workerPoolSize ∧ ws.Nodup then
          (Engine.step s.pool (.start ws x.job x.settings)).map fun pool =>
            { s with pool }.setExec e { x with pc := .running, workers := ws }
        else none
      | _ => none
  | .gathered e =>
    (s.execs e).bind fun x => match x.pc with
      | .running => if x.workers.all (hasLeft s.pool) then some (s.setPc e x .gathered) else none
      | _ => none
  -- mirrors app/engine/batch_engine.py:66
  | .setCompleted e =>
    (s.execs e).bind fun x => match x.pc with
      | .gathered =>
        some ({ s with jobs := s.jobs.setState x.job .completed none }.setPc e x .finished)
      | _ => none
  -- `gather` raises the exception of a worker and leaves the others running
  | .gatherRaises e w msg =>
    (s.execs e).bind fun x => match x.pc with
      | .running =>
        if w ∈ x.workers ∧ hasRaised s.pool w = true then some (s.setPc e x (x.except msg)) else none
      | _ => none
  -- an await of the execution itself raises
  | .raise e msg =>
    (s.execs e).bind fun x => match x.pc with
      | .created | .ingesting .. | .ingested | .gathered => some (s.setPc e x (x.except msg))
      | .failing _ => some (s.setPc e x .raised)
      | _ => none
  -- mirrors app/services/job_service.py:109-113
  | .setFailed e =>
    (s.execs e).bind fun x => match x.pc with
      | .failing msg =>
        some ({ s with jobs := s.jobs.setState x.job .failed (some msg) }.setPc e x .failed)
      | _ => none
  | .crash es =>
    (Engine.step s.pool (.crash (s.workersOf es))).map fun pool => { s with pool }.stopExecs es
  | .worker a =>
    if byWorker a = true then (Engine.step s.pool a).map fun pool => { s with pool } else none

def system : LTS SState SAct := LTS.ofFn (fun s => ∃ now, s = .init now) (sysStep text)

/-! ## What a step requires and does -/

inductive Change (s : SState) : SAct → SState → Prop
  | submit {e : ExecId} {job : JobId} {inputPath : String} {model : Option String}
      {settings : Settings} {jobs : Jobs} (hfree : s.execs e = none)
      (hj : s.jobs.create (newJob job inputPath model settings) = some jobs) :
      Change s (.submit e job inputPath model settings)
        ({ s with jobs }.setExec e (newExecution job settings))
  | resume {es : List ExecId} {settings : Settings}
      (hlen : es.length = s.jobs.listActive.length) (hn : es.Nodup)
      (hfree : ∀ e ∈ es, s.execs e = none) :
      Change s (.resume es settings) { s with
        execs := fun e => match (es.zip s.jobs.listActive).lookup e with
          | some (job, _) => some (newExecution job settings)
          | none => s.execs e }
  | runWorker {e : ExecId} {job : JobId} {settings : Settings} (hfree : s.execs e = none) :
      Change s (.runWorker e job settings)
        (s.setExec e { job, settings, standalone := true, pc := .starting })
  | setIngesting {e : ExecId} {x : Execution} (elements : List Json) (hx : s.execs e = some x)
      (hp : x.pc = .created) :
      Change s (.setIngesting e elements)
        ({ s with jobs := s.jobs.setState x.job .ingesting none }.setPc e x
          (.ingesting (ingestLoop text (buildValidationPipeline x.settings) elements).flushed
            (ingestLoop text (buildValidationPipeline x.settings) elements).total))
  | flush {e : ExecId} {x : Execution} {b : List PromptItem × List ResultRecord}
      {rest : List (List PromptItem × List ResultRecord)} {total : Nat} {p : PState}
      (hx : s.execs e = some x) (hp : x.pc = .ingesting (b :: rest) total)
      (hst : pool.step s.pool (.bulkInsert x.job b.1 b.2) p) :
      Change s (.flush e) ({ s with pool := p }.setPc e x (.ingesting rest total))
  | setTotal {e : ExecId} {x : Execution} {total : Nat} (hx : s.execs e = some x)
      (hp : x.pc = .ingesting [] total) :
      Change s (.setTotal e) ({ s with jobs := s.jobs.setTotal x.job total }.setPc e x .ingested)
  | setRunning {e : ExecId} {x : Execution} (hx : s.execs e = some x) (hp : x.pc = .ingested) :
      Change s (.setRunning e)
        ({ s with jobs := s.jobs.setState x.job .running none }.setPc e x .starting)
  | engineStart {e : ExecId} {x : Execution} {ws : List WorkerId} {p : PState}
      (hx : s.execs e = some x) (hp : x.pc = .starting)
      (hlen : ws.length = x.settings.workerPoolSize) (hn : ws.Nodup)
      (hst : pool.step s.pool (.start ws x.job x.settings) p) :
      Change s (.engineStart e ws)
        ({ s with pool := p }.setExec e { x with pc := .running, workers := ws })
  | gathered {e : ExecId} {x : Execution} (hx : s.execs e = some x) (hp : x.pc = .running)
      (hl : ∀ w ∈ x.workers, hasLeft s.pool w = true) :
      Change s (.gathered e) (s.setPc e x .gathered)
  | setCompleted {e : ExecId} {x : Execution} (hx : s.execs e = some x) (hp : x.pc = .gathered) :
      Change s (.setCompleted e)
        ({ s with jobs := s.jobs.setState x.job .completed none }.setPc e x .finished)
  | gatherRaises {e : ExecId} {x : Execution} {w : WorkerId} {msg : String}
      (hx : s.execs e = some x) (hp : x.pc = .running) (hw : w ∈ x.workers)
      (hr : hasRaised s.pool w = true) :
      Change s (.gatherRaises e w msg) (s.setPc e x (x.except msg))
  | raise {e : ExecId} {x : Execution} {msg : String} (hx : s.execs e = some x)
      (hp : x.pc = .created ∨ (∃ rest total, x.pc = .ingesting rest total) ∨ x.pc = .ingested ∨
        x.pc = .gathered) : Change s (.raise e msg) (s.setPc e x (x.except msg))
  /-- The handler's own `set_state` raises. -/
  | handlerRaises {e : ExecId} {x : Execution} {msg msg' : String} (hx : s.execs e = some x)
      (hp : x.pc = .failing msg') : Change s (.raise e msg) (s.setPc e x .raised)
  | setFailed {e : ExecId} {x : Execution} {msg : String} (hx : s.execs e = some x)
      (hp : x.pc = .failing msg) :
      Change s (.setFailed e)
        ({ s with jobs := s.jobs.setState x.job .failed (some msg) }.setPc e x .failed)
  | crash {es : List ExecId} {p : PState} (hst : pool.step s.pool (.crash (s.workersOf es)) p) :
      Change s (.crash es) ({ s with pool := p }.stopExecs es)
  | worker {a : Act} {p : PState} (ha : byWorker a = true) (hst : pool.step s.pool a p) :
      Change s (.worker a) { s with pool := p }

variable {text} {s v : SState} {l : SAct}

theorem change_of_step (h : sysStep text s l = some v) : Change text s l v := by
  cases l with
  | submit e job inputPath model settings =>
    simp only [sysStep, Option.ite_none_right_eq_some, Option.map_eq_some_iff] at h
    obtain ⟨hfree, jobs, hj, rfl⟩ := h
    exact .submit hfree hj
  | resume es settings =>
    simp only [sysStep, Option.ite_none_right_eq_some, Option.some.injEq] at h
    obtain ⟨⟨hlen, hn, hfree⟩, rfl⟩ := h
    exact .resume hlen hn hfree
  | runWorker e job settings =>
    simp only [sysStep, Option.ite_none_right_eq_some, Option.some.injEq] at h
    obtain ⟨hfree, rfl⟩ := h
    exact .runWorker hfree
  | setIngesting e elements =>
    simp only [sysStep, Option.bind_eq_some_iff] at h
    obtain ⟨x, hx, h⟩ := h
    split at h
    · rename_i hp; cases h; exact .setIngesting elements hx hp
    · cases h
  | flush e =>
    simp only [sysStep, Option.bind_eq_some_iff] at h
    obtain ⟨x, hx, h⟩ := h
    split at h
    · rename_i hp
      obtain ⟨p, hst, rfl⟩ := Option.map_eq_some_iff.mp h
      exact .flush hx hp hst
    · cases h
  | setTotal e =>
    simp only [sysStep, Option.bind_eq_some_iff] at h
    obtain ⟨x, hx, h⟩ := h
    split at h
    · rename_i hp; cases h; exact .setTotal hx hp
    · cases h
  | setRunning e =>
    simp only [sysStep, Option.bind_eq_some_iff] at h
    obtain ⟨x, hx, h⟩ := h
    split at h
    · rename_i hp; cases h; exact .setRunning hx hp
    · cases h
  | engineStart e ws =>
    simp only [sysStep, Option.bind_eq_some_iff] at h
    obtain ⟨x, hx, h⟩ := h
    split at h
    · rename_i hp
      rw [Option.ite_none_right_eq_some] at h
      obtain ⟨⟨hlen, hn⟩, h⟩ := h
      obtain ⟨p, hst, rfl⟩ := Option.map_eq_some_iff.mp h
      exact .engineStart hx hp hlen hn hst
    · cases h
  | gathered e =>
    simp only [sysStep, Option.bind_eq_some_iff] at h
    obtain ⟨x, hx, h⟩ := h
    split at h
    · rename_i hp
      rw [Option.ite_none_right_eq_some, List.all_eq_true] at h
      obtain ⟨hl, h⟩ := h
      cases h
      exact .gathered hx hp hl
    · cases h
  | setCompleted e =>
    simp only [sysStep, Option.bind_eq_some_iff] at h
    obtain ⟨x, hx, h⟩ := h
    split at h
    · rename_i hp; cases h; exact .setCompleted hx hp
    · cases h
  | gatherRaises e w msg =>
    simp only [sysStep, Option.bind_eq_some_iff] at h
    obtain ⟨x, hx, h⟩ := h
    split at h
    · rename_i hp
      rw [Option.ite_none_right_eq_some] at h
      obtain ⟨⟨hw, hr⟩, h⟩ := h
      cases h
      exact .gatherRaises hx hp hw hr
    · cases h
  | raise e msg =>
    simp only [sysStep, Option.bind_eq_some_iff] at h
    obtain ⟨x, hx, h⟩ := h
    split at h
    · rename_i hp; cases h; exact .raise hx (.inl hp)
    · rename_i hp; cases h; exact .raise hx (.inr (.inl ⟨_, _, hp⟩))
    · rename_i hp; cases h; exact .raise hx (.inr (.inr (.inl hp)))
    · rename_i hp; cases h; exact .raise hx (.inr (.inr (.inr hp)))
    · rename_i hp; cases h; exact .handlerRaises hx hp
    · cases h
  | setFailed e =>
    simp only [sysStep, Option.bind_eq_some_iff] at h
    obtain ⟨x, hx, h⟩ := h
    split at h
    · rename_i hp; cases h; exact .setFailed hx hp
    · cases h
  | crash es =>
    simp only [sysStep, Option.map_eq_some_iff] at h
    obtain ⟨p, hst, rfl⟩ := h
    exact .crash hst
  | worker a =>
    simp only [sysStep, Option.ite_none_right_eq_some, Option.map_eq_some_iff] at h
    obtain ⟨ha, p, hst, rfl⟩ := h
    exact .worker ha hst

/-! ## The worker pool -/

/-- The step that the worker pool takes, if any. -/
def poolAct (s : SState) : SAct → Option Act
  | .flush e => (s.execs e).bind fun x => match x.pc with
    | .ingesting (b :: _) _ => some (.bulkInsert x.job b.1 b.2)
    | _ => none
  | .engineStart e ws => (s.execs e).map fun x => .start ws x.job x.settings
  | .crash es => some (.crash (s.workersOf es))
  | .worker a => some a
  | _ => none

/-- **The system refines the worker pool.** -/
theorem system_refines : (system text).Refines pool SState.pool poolAct := by
  refine ⟨?_, fun s l v _ hst => ?_⟩
  · rintro _ ⟨now, rfl⟩
    exact ⟨now, rfl⟩
  · cases change_of_step hst with
    | flush hx hp hpool => simp only [poolAct, hx, Option.bind_some, hp]; exact hpool
    | engineStart hx hp hlen hn hpool => simp only [poolAct, hx, Option.map_some]; exact hpool
    | crash hpool | worker ha hpool => exact hpool
    | submit | resume | runWorker | setIngesting | setTotal | setRunning | gathered | setCompleted
    | gatherRaises | raise | handlerRaises | setFailed => rfl

/-- Which step of the system takes which step of the pool. -/
inductive Drives (s : SState) : SAct → Act → Prop
  | flush {e : ExecId} {x : Execution} {b : List PromptItem × List ResultRecord}
      {rest : List (List PromptItem × List ResultRecord)} {total : Nat} (hx : s.execs e = some x)
      (hp : x.pc = .ingesting (b :: rest) total) :
      Drives s (.flush e) (.bulkInsert x.job b.1 b.2)
  | engineStart {e : ExecId} {ws : List WorkerId} {x : Execution} (hx : s.execs e = some x) :
      Drives s (.engineStart e ws) (.start ws x.job x.settings)
  | crash (es : List ExecId) : Drives s (.crash es) (.crash (s.workersOf es))
  | worker {a : Act} (ha : byWorker a = true) : Drives s (.worker a) a

theorem drives_of_poolAct (hst : (system text).step s l v) {a : Act}
    (ha : poolAct s l = some a) : Drives s l a := by
  cases change_of_step hst with
  | flush hx hp =>
    simp only [poolAct, hx, Option.bind_some, hp, Option.some.injEq] at ha
    subst ha
    exact .flush hx hp
  | engineStart hx =>
    simp only [poolAct, hx, Option.map_some, Option.some.injEq] at ha
    subst ha
    exact .engineStart hx
  | crash => cases ha; exact .crash _
  | worker hb => cases ha; exact .worker hb
  | submit | resume | runWorker | setIngesting | setTotal | setRunning | gathered | setCompleted
  | gatherRaises | raise | handlerRaises | setFailed => cases ha

/-- Rows come from the flushes of an ingest only. -/
theorem flush_of_bulkInsert (hst : (system text).step s l v) {job : JobId}
    {items : List PromptItem} {failed : List ResultRecord}
    (ha : poolAct s l = some (.bulkInsert job items failed)) :
    ∃ e x rest total, l = .flush e ∧ s.execs e = some x ∧ x.job = job ∧
      x.pc = .ingesting ((items, failed) :: rest) total := by
  cases drives_of_poolAct hst ha with
  | flush hx hp => exact ⟨_, _, _, _, rfl, hx, rfl, hp⟩
  | worker hb => cases hb

theorem pool_reachable (h : (system text).Reachable s) : pool.Reachable s.pool :=
  system_refines.reachable h

/-! ## One execution -/

theorem of_setExec {u : SState} {e y : ExecId} {x x' : Execution}
    (h : (u.setExec e x).execs y = some x') :
    (y = e ∧ x' = x) ∨ (y ≠ e ∧ u.execs y = some x') := by
  by_cases he : y = e
  · subst he
    simp only [SState.setExec, if_true] at h
    exact .inl ⟨rfl, (Option.some.inj h).symm⟩
  · simp only [SState.setExec, if_neg he] at h
    exact .inr ⟨he, h⟩

theorem mem_zip_lookup {es : List ExecId} {as : List (JobId × String)} {e : ExecId}
    {a : JobId × String} (h : (es.zip as).lookup e = some a) : e ∈ es ∧ a ∈ as := by
  induction es generalizing as with
  | nil => cases h
  | cons d es ih =>
    cases as with
    | nil => cases h
    | cons b as =>
      simp only [List.zip_cons_cons, List.lookup_cons] at h
      split at h
      · rename_i he
        cases h
        exact ⟨by simp [beq_iff_eq.mp he], List.mem_cons_self⟩
      · obtain ⟨h1, h2⟩ := ih h
        exact ⟨List.mem_cons_of_mem _ h1, List.mem_cons_of_mem _ h2⟩

/-- What a step makes of one execution. -/
inductive ExecTurn (text : Json → String) (s : SState) (e : ExecId) : SAct → Execution → Prop
  | same {l : SAct} {x : Execution} (hx : s.execs e = some x) : ExecTurn text s e l x
  | submit {job : JobId} {inputPath : String} {model : Option String} {settings : Settings}
      (hn : s.execs e = none) :
      ExecTurn text s e (.submit e job inputPath model settings) (newExecution job settings)
  | resume {es : List ExecId} {a : JobId × String} {settings : Settings} (hn : s.execs e = none)
      (he : e ∈ es) (ha : a ∈ s.jobs.listActive) :
      ExecTurn text s e (.resume es settings) (newExecution a.1 settings)
  | runWorker {job : JobId} {settings : Settings} (hn : s.execs e = none) :
      ExecTurn text s e (.runWorker e job settings)
        { job, settings, standalone := true, pc := .starting }
  | setIngesting {x : Execution} (elements : List Json) (hx : s.execs e = some x)
      (hp : x.pc = .created) :
      ExecTurn text s e (.setIngesting e elements) { x with
        pc := .ingesting
          (ingestLoop text (buildValidationPipeline x.settings) elements).flushed
          (ingestLoop text (buildValidationPipeline x.settings) elements).total }
  | flush {x : Execution} {b : List PromptItem × List ResultRecord}
      {rest : List (List PromptItem × List ResultRecord)} {total : Nat} (hx : s.execs e = some x)
      (hp : x.pc = .ingesting (b :: rest) total) :
      ExecTurn text s e (.flush e) { x with pc := .ingesting rest total }
  | setTotal {x : Execution} {total : Nat} (hx : s.execs e = some x)
      (hp : x.pc = .ingesting [] total) :
      ExecTurn text s e (.setTotal e) { x with pc := .ingested }
  | setRunning {x : Execution} (hx : s.execs e = some x) (hp : x.pc = .ingested) :
      ExecTurn text s e (.setRunning e) { x with pc := .starting }
  | engineStart {x : Execution} {ws : List WorkerId} (hx : s.execs e = some x)
      (hp : x.pc = .starting) (hlen : ws.length = x.settings.workerPoolSize) :
      ExecTurn text s e (.engineStart e ws) { x with pc := .running, workers := ws }
  | gathered {x : Execution} (hx : s.execs e = some x) (hp : x.pc = .running)
      (hl : ∀ w ∈ x.workers, hasLeft s.pool w = true) :
      ExecTurn text s e (.gathered e) { x with pc := .gathered }
  | setCompleted {x : Execution} (hx : s.execs e = some x) (hp : x.pc = .gathered) :
      ExecTurn text s e (.setCompleted e) { x with pc := .finished }
  | gatherRaises {x : Execution} {w : WorkerId} {msg : String} (hx : s.execs e = some x)
      (hp : x.pc = .running) :
      ExecTurn text s e (.gatherRaises e w msg) { x with pc := x.except msg }
  | raise {x : Execution} {msg : String} (hx : s.execs e = some x)
      (hp : x.pc = .created ∨ (∃ rest total, x.pc = .ingesting rest total) ∨ x.pc = .ingested ∨
        x.pc = .gathered) : ExecTurn text s e (.raise e msg) { x with pc := x.except msg }
  | handlerRaises {x : Execution} {msg msg' : String} (hx : s.execs e = some x)
      (hp : x.pc = .failing msg') : ExecTurn text s e (.raise e msg) { x with pc := .raised }
  | setFailed {x : Execution} {msg : String} (hx : s.execs e = some x)
      (hp : x.pc = .failing msg) : ExecTurn text s e (.setFailed e) { x with pc := .failed }
  | crash {x : Execution} {es : List ExecId} (hx : s.execs e = some x) (he : e ∈ es)
      (hend : x.pc.ended = false) : ExecTurn text s e (.crash es) { x with pc := .dead }

theorem execTurn_of_change (hc : Change text s l v) {e : ExecId} {x' : Execution}
    (h : v.execs e = some x') : ExecTurn text s e l x' := by
  cases hc with
  | submit hfree =>
    rcases of_setExec h with ⟨rfl, rfl⟩ | ⟨-, h⟩
    · exact .submit hfree
    · exact .same h
  | resume hlen hn hfree =>
    simp only at h
    split at h
    · rename_i hl
      cases h
      obtain ⟨he, ha⟩ := mem_zip_lookup hl
      exact .resume (hfree e he) he ha
    · exact .same h
  | runWorker hfree =>
    rcases of_setExec h with ⟨rfl, rfl⟩ | ⟨-, h⟩
    · exact .runWorker hfree
    · exact .same h
  | setIngesting elements hx hp =>
    rcases of_setExec h with ⟨rfl, rfl⟩ | ⟨-, h⟩
    · exact .setIngesting elements hx hp
    · exact .same h
  | flush hx hp =>
    rcases of_setExec h with ⟨rfl, rfl⟩ | ⟨-, h⟩
    · exact .flush hx hp
    · exact .same h
  | setTotal hx hp =>
    rcases of_setExec h with ⟨rfl, rfl⟩ | ⟨-, h⟩
    · exact .setTotal hx hp
    · exact .same h
  | setRunning hx hp =>
    rcases of_setExec h with ⟨rfl, rfl⟩ | ⟨-, h⟩
    · exact .setRunning hx hp
    · exact .same h
  | engineStart hx hp hlen =>
    rcases of_setExec h with ⟨rfl, rfl⟩ | ⟨-, h⟩
    · exact .engineStart hx hp hlen
    · exact .same h
  | gathered hx hp hl =>
    rcases of_setExec h with ⟨rfl, rfl⟩ | ⟨-, h⟩
    · exact .gathered hx hp hl
    · exact .same h
  | setCompleted hx hp =>
    rcases of_setExec h with ⟨rfl, rfl⟩ | ⟨-, h⟩
    · exact .setCompleted hx hp
    · exact .same h
  | gatherRaises hx hp =>
    rcases of_setExec h with ⟨rfl, rfl⟩ | ⟨-, h⟩
    · exact .gatherRaises hx hp
    · exact .same h
  | raise hx hp =>
    rcases of_setExec h with ⟨rfl, rfl⟩ | ⟨-, h⟩
    · exact .raise hx hp
    · exact .same h
  | handlerRaises hx hp =>
    rcases of_setExec h with ⟨rfl, rfl⟩ | ⟨-, h⟩
    · exact .handlerRaises hx hp
    · exact .same h
  | setFailed hx hp =>
    rcases of_setExec h with ⟨rfl, rfl⟩ | ⟨-, h⟩
    · exact .setFailed hx hp
    · exact .same h
  | crash =>
    simp only [SState.stopExecs] at h
    split at h
    · rename_i he
      obtain ⟨x, hx, rfl⟩ := Option.map_eq_some_iff.mp h
      split
      · exact .same hx
      · rename_i hend
        exact .crash hx he (by simpa using hend)
    · exact .same h
  | worker => exact .same h

/-- Where an execution of the new state comes from. -/
inductive ExecNext (s : SState) (l : SAct) (e : ExecId) (x' : Execution) : Prop
  | new (h : s.execs e = none) (hw : x'.workers = []) (hp : x'.pc.gathering = false)
  | started {x : Execution} (hx : s.execs e = some x) (hl : l = .engineStart e x'.workers)
      (hp : x.pc = .starting) (he : x' = { x with pc := .running, workers := x'.workers })
      (hlen : x'.workers.length = x.settings.workerPoolSize)
  | gathered {x : Execution} (hx : s.execs e = some x) (hp : x.pc = .running)
      (hleft : ∀ w ∈ x.workers, hasLeft s.pool w = true) (he : x' = { x with pc := .gathered })
  | moved {x : Execution} (hx : s.execs e = some x) (he : x' = { x with pc := x'.pc })
      (hp : x'.pc = x.pc ∨ x'.pc.gathering = false)

theorem exec_next (hc : Change text s l v) {e : ExecId} {x' : Execution}
    (h : v.execs e = some x') : ExecNext s l e x' := by
  cases execTurn_of_change hc h with
  | same hx => exact .moved hx rfl (.inl rfl)
  | submit hn | resume hn | runWorker hn => exact .new hn rfl rfl
  | engineStart hx hp hlen => exact .started hx rfl hp rfl hlen
  | gathered hx hp hl => exact .gathered hx hp hl rfl
  | setIngesting _ hx | flush hx | setTotal hx | setRunning hx | setCompleted hx
  | handlerRaises hx | setFailed hx | crash hx => exact .moved hx rfl (.inr rfl)
  | @gatherRaises x _ msg hx | @raise x msg hx =>
    refine .moved hx rfl (.inr ?_)
    show (x.except msg).gathering = false
    unfold Execution.except
    split <;> rfl

/-- The worker pool of the new state. -/
theorem pool_next (hr : (system text).Reachable s) (hst : (system text).step s l v) :
    v.pool = s.pool ∨ ∃ a, poolAct s l = some a ∧ pool.step s.pool a v.pool := by
  have h := system_refines.step s l v hr hst
  cases ha : poolAct s l with
  | none => simp only [ha] at h; exact .inl h
  | some a => simp only [ha] at h; exact .inr ⟨a, rfl, h⟩

/-- The executions that a step creates. -/
def createdBy : SAct → List ExecId
  | .submit e .. | .runWorker e .. => [e]
  | .resume es _ => es
  | _ => []

theorem created_run {tr : List (Trans SState SAct)}
    (h : (system text).Run tr s) : ∀ e x, s.execs e = some x →
      e ∈ tr.flatMap fun t => createdBy t.lbl := by
  refine h.induct (P := fun tr s => ∀ e x, s.execs e = some x →
    e ∈ tr.flatMap fun t => createdBy t.lbl) ?_ ?_
  · rintro _ ⟨now, rfl⟩ e x hx; cases hx
  · intro tr s l v _ ih hst e x' hx'
    rw [List.flatMap_append, List.mem_append]
    cases execTurn_of_change (change_of_step hst) hx' with
    | same hx | setIngesting _ hx | flush hx | setTotal hx | setRunning hx | engineStart hx
    | gathered hx | setCompleted hx | gatherRaises hx | raise hx | handlerRaises hx | setFailed hx
    | crash hx => exact .inl (ih e _ hx)
    | submit | runWorker => exact .inr (by simp [createdBy])
    | resume _ he => exact .inr (by simpa [createdBy] using he)

/-- A run meets a condition on its steps if they meet it among the executions
that it creates. -/
theorem restrict_of_created {C : SState → SAct → Prop} {tr : List (Trans SState SAct)}
    (h : (system text).Run tr s)
    (hc : ∀ t ∈ tr, (∀ e x, t.pre.execs e = some x → e ∈ tr.flatMap fun t => createdBy t.lbl) →
      C t.pre t.lbl) : ((system text).restrict C).Run tr s := by
  obtain ⟨s₀, h₀, hp⟩ := h
  refine ⟨s₀, h₀, hp.restrict fun t ht => hc t ht fun e x hx => ?_⟩
  obtain ⟨tr₁, tr₂, rfl⟩ := List.append_of_mem ht
  have he := created_run ⟨s₀, h₀, (hp.split rfl).1⟩ e x hx
  rw [List.flatMap_append]
  exact List.mem_append_left _ he

end BatchSystem.Service
