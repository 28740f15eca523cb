import BatchSystem.Service.Crew
import BatchSystem.Engine.Queued
import BatchSystem.Ingest.Accepted

/-!
# What COMPLETED says about the rows

`BatchEngine.run` takes its workers' empty claims for the end of the work. An
execution is `Drained` when all its workers have left. If the last of them left
while no row of the job was CLAIMED from outside, and no ingest has added an
unfinished row since (`Settled`), every row of the job is finished
(`drained_reachable`) and stays so until the job is set COMPLETED
(`completed_finished`). `completed_unfinished` is a resumed job whose crashed
predecessor still holds a lease.
-/
namespace BatchSystem.Service

open BatchSystem.Core Domain Queue Engine Ingest
open SState (workersOf)

/-- All workers of the execution have left. -/
def Drained (s : SState) (x : Execution) : Prop :=
  x.workers ≠ [] ∧ ∀ w ∈ x.workers, hasLeft s.pool w = true

/-- Every engine starts with at least one worker and a positive chunk size. -/
def Sized (s : SState) (l : SAct) : Prop :=
  ∀ e ws x, l = .engineStart e ws → s.execs e = some x →
    1 ≤ x.settings.workerPoolSize ∧ 1 ≤ x.settings.chunkSize

/-- When the last worker of an execution leaves, only workers of the execution
own rows of its job. -/
def LastLeaves (s : SState) (l : SAct) : Prop :=
  ∀ w cid e x, l = .worker (.claim w cid []) → s.execs e = some x → w ∈ x.workers →
    (∀ w' ∈ x.workers, w' ≠ w → hasLeft s.pool w' = true) →
      ∀ r ∈ s.pool.items.rows, r.jobId = x.job → r.status = .claimed →
        ∃ w' ∈ x.workers, r.workerId = some w'

/-- Ingestion adds no unfinished row to a job that is being set COMPLETED. -/
def IngestOver (s : SState) (l : SAct) : Prop :=
  ∀ e x, s.execs e = some x → x.pc.gathering = true → Drained s x →
    ∀ a, poolAct s l = some a → ∀ r ∈ rowsNew s.pool a, r.jobId = x.job →
      r.status.terminal = true

def Settled (s : SState) (l : SAct) : Prop := Sized s l ∧ LastLeaves s l ∧ IngestOver s l

/-! ## Workers that left -/

section pool
variable {s v : PState} {l : Act}

theorem hasLeft_iff {p : PState} {w : WorkerId} :
    hasLeft p w = true ↔ ∃ k, p.workers w = some k ∧ k.life = .left := by
  simp [hasLeft, Option.any_eq_true]

/-- A worker leaves by an empty claim, with no row to claim. -/
theorem left_next (hm : Move s l v) {w : WorkerId} (h : hasLeft v w = true) :
    hasLeft s w = true ∨ ∃ cid k, l = .claim w cid [] ∧ s.workers w = some k ∧
      k.phase = .claiming ∧ claimed s.items k.job k.settings.chunkSize s.now = [] := by
  obtain ⟨k', hx, hlife⟩ := hasLeft_iff.mp h
  cases life_next hm hx with
  | new _ _ hl => rw [hlife] at hl; cases hl
  | same hk => exact .inl (hasLeft_iff.mpr ⟨k', hk, hlife⟩)
  | moved _ _ _ hl' => rw [hlife] at hl'; cases hl'
  | left hk _ ha hp he => exact .inr ⟨_, _, ha, hk, hp, he⟩
  | stopped _ _ hl' => rw [hlife] at hl'; rcases hl' with hl' | hl' <;> cases hl'

theorem left_stays (hm : Move s l v) {w : WorkerId} (h : hasLeft s w = true) :
    hasLeft v w = true := by
  obtain ⟨k, hk, hlife⟩ := hasLeft_iff.mp h
  obtain ⟨k', hk'⟩ := worker_persists hm hk
  rw [hasLeft_iff]
  -- a worker that left is not running, so no step moves it
  cases life_next hm hk' with
  | new hn => rw [hk] at hn; cases hn
  | same h₀ =>
    obtain rfl := Option.some.inj (h₀.symm.trans hk)
    exact ⟨k', hk', hlife⟩
  | moved h₀ _ hl | left h₀ hl | stopped h₀ hl =>
    obtain rfl := Option.some.inj (h₀.symm.trans hk)
    rw [hlife] at hl; cases hl

end pool

/-! ## The invariant -/

structure ExecOk (s : SState) (x : Execution) : Prop where
  workers : ∀ w ∈ x.workers, ∃ k, s.pool.workers w = some k ∧ k.job = x.job ∧
    k.settings = x.settings
  sized : x.pc.gathering = true → x.workers ≠ [] ∧ 1 ≤ x.settings.chunkSize
  left : x.pc = .gathered → ∀ w ∈ x.workers, hasLeft s.pool w = true

section inv
variable {text : Json → String} {s v : SState} {l : SAct}

theorem left_pool (hr : (system text).Reachable s) (hst : (system text).step s l v)
    {w : WorkerId} (h : hasLeft s.pool w = true) : hasLeft v.pool w = true := by
  rcases pool_next hr hst with hp | ⟨a, -, hp⟩
  · rwa [hp]
  · exact left_stays (move_of_step hp) h

theorem execOk_step (hr : (system text).Reachable s)
    (h : ∀ e x, s.execs e = some x → ExecOk s x) (hst : (system text).step s l v)
    (hsize : Sized s l) : ∀ e x, v.execs e = some x → ExecOk v x := by
  intro e x' hx'
  -- an execution with the workers it had
  have keep : ∀ x pc, s.execs e = some x → (pc = x.pc ∨ pc.gathering = false) →
      ExecOk v { x with pc } := by
    intro x pc hx hpc
    obtain ⟨h1, h2, h3⟩ := h e x hx
    refine ⟨fun w hw => ?_, fun hg => ?_, fun hg w hw => ?_⟩
    · obtain ⟨k, hk, hj, hs⟩ := h1 w hw
      obtain ⟨k', hk', hj', hs'⟩ := workers_pool hr hst hk
      exact ⟨k', hk', hj'.trans hj, hs'.trans hs⟩
    · rcases hpc with rfl | hpc
      · exact h2 hg
      · rw [show ({ x with pc } : Execution).pc = pc from rfl, hpc] at hg; cases hg
    · rcases hpc with rfl | hpc
      · exact left_pool hr hst (h3 hg w hw)
      · rw [show pc = .gathered from hg] at hpc; cases hpc
  cases exec_next (change_of_step hst) hx' with
  | new hn hw hp =>
    refine ⟨by rw [hw]; exact nofun, fun hg => ?_, fun hg => ?_⟩
    · rw [hp] at hg; cases hg
    · rw [hg] at hp; cases hp
  | started hx hl hp he hlen =>
    subst hl
    obtain ⟨x₀, hx₀, hws⟩ := started_workers hst
    obtain rfl := Option.some.inj (hx.symm.trans hx₀)
    obtain ⟨hpool, hchunk⟩ := hsize e x'.workers _ rfl hx
    rw [he]
    refine ⟨fun w hw => ⟨_, hws w hw, rfl, rfl⟩, fun _ => ⟨fun hn => ?_, hchunk⟩, nofun⟩
    rw [show x'.workers = [] from hn, List.length_nil] at hlen
    omega
  | gathered hx hp hleft he =>
    obtain ⟨h1, h2, -⟩ := keep _ _ hx (.inl rfl)
    rw [he]
    exact ⟨h1, fun _ => h2 (by rw [hp]; rfl), fun _ w hw => left_pool hr hst (hleft w hw)⟩
  | moved hx he hp => rw [he]; exact keep _ _ hx hp

/-- The rows of the job of a drained execution are finished. -/
def DrainedFinished (s : SState) : Prop :=
  ∀ e x, s.execs e = some x → x.pc.gathering = true → Drained s x →
    ∀ r ∈ s.pool.items.rows, r.jobId = x.job → r.status.terminal = true

/-- The last worker of an execution leaves: no row is PENDING, since it could
claim none, and the owner of a CLAIMED row would still hold a chunk. -/
theorem finished_of_lastLeaves (hr : (system text).Reachable s) {w : WorkerId}
    {cid : Storage.ChunkId} {k : Worker} (hk : s.pool.workers w = some k)
    (hp : k.phase = .claiming)
    (he : claimed s.pool.items k.job k.settings.chunkSize s.pool.now = []) {e : ExecId}
    {x : Execution} (hx : s.execs e = some x) (hok : ExecOk s x) (hg : x.pc.gathering = true)
    (hw : w ∈ x.workers) (hothers : ∀ w' ∈ x.workers, w' ≠ w → hasLeft s.pool w' = true)
    (hlast : LastLeaves s (.worker (.claim w cid []))) :
    ∀ r ∈ s.pool.items.rows, r.jobId = x.job → r.status.terminal = true := by
  intro r hrow hj
  obtain ⟨k₀, hk₀, hkj, hks⟩ := hok.workers w hw
  obtain rfl := Option.some.inj (hk₀.symm.trans hk)
  have hnone := (claimed_eq_nil (hks ▸ (hok.sized hg).2)).mp he r hrow
  cases hs : r.status with
  | succeeded | failed => rfl
  | pending =>
    rw [claimable, hj, hkj, hs] at hnone
    simp at hnone
  | claimed =>
    -- the owner is a worker of the execution, and none of these holds a chunk
    obtain ⟨w', hw', hown⟩ := hlast w cid e x rfl hx hw hothers r hrow hj hs
    obtain ⟨k', hk', -, c, hc, -⟩ := (owners_reachable (pool_reachable hr)).holds r hrow hs w' hown
    have hclaiming : k'.phase = .claiming := by
      by_cases hne : w' = w
      · subst hne
        obtain rfl := Option.some.inj (hk'.symm.trans hk)
        exact hp
      · obtain ⟨k₁, hk₁, hl₁⟩ := hasLeft_iff.mp (hothers w' hw' hne)
        obtain rfl := Option.some.inj (hk₁.symm.trans hk')
        exact left_claiming (pool_reachable hr) w' _ hk' hl₁
    rw [hclaiming] at hc; cases hc

/-- An execution whose workers have all left was gathering before the step. -/
theorem gathering_before (hst : (system text).step s l v) {e : ExecId} {x' : Execution}
    (hx' : v.execs e = some x') (hg' : x'.pc.gathering = true) (hd' : Drained v x') :
    ∃ x, s.execs e = some x ∧ x.pc.gathering = true ∧ x'.job = x.job ∧
      x'.workers = x.workers := by
  cases exec_next (change_of_step hst) hx' with
  | new hn hw hp => rw [hp] at hg'; cases hg'
  | started hx hl hp he hlen =>
    subst hl
    obtain ⟨x₀, -, hws⟩ := started_workers hst
    obtain ⟨w, hw⟩ := List.exists_mem_of_ne_nil _ hd'.1
    obtain ⟨k, hk, hleft⟩ := hasLeft_iff.mp (hd'.2 w hw)
    rw [hws w hw] at hk
    cases hk
    cases hleft
  | gathered hx hp hleft he => exact ⟨_, hx, by rw [hp]; rfl, by rw [he], by rw [he]⟩
  | moved hx he hp =>
    rcases hp with hp | hp
    · exact ⟨_, hx, hp ▸ hg', by rw [he], by rw [he]⟩
    · rw [hp] at hg'; cases hg'

theorem drained_step (hr : (system text).Reachable s)
    (hok : ∀ e x, s.execs e = some x → ExecOk s x) (h : DrainedFinished s)
    (hst : (system text).step s l v) (hcond : Settled s l) : DrainedFinished v := by
  intro e x' hx' hg' hd' r' hr' hj'
  obtain ⟨x, hx, hg, hj, hws⟩ := gathering_before hst hx' hg' hd'
  rw [hj] at hj'
  rw [Drained, hws] at hd'
  rcases pool_next hr hst with hpool | ⟨a, ha, hpool⟩
  · rw [hpool] at hr' hd'
    exact h e x hx hg hd' r' hr' hj'
  have hreach := pool_reachable hr
  have hm := move_of_step hpool
  by_cases hd : Drained s x
  · -- it was drained: finished rows stay, and the ingest adds no other
    rcases (mem_next hreach hpool).mp hr' with ⟨r, hrow, rfl⟩ | hnew
    · rw [(rowNext_sameKey _ a r).2.1] at hj'
      have ht := h e x hx hg hd r hrow hj'
      rw [rowNext_terminal _ a ht]; exact ht
    · exact hcond.2.2 e x hx hg hd a ha r' hnew hj'
  · -- a worker of it has just left
    obtain ⟨w, hw, hnl⟩ : ∃ w ∈ x.workers, hasLeft s.pool w ≠ true := by
      by_contra hall
      push Not at hall
      exact hd ⟨hd'.1, hall⟩
    obtain ⟨cid, k, rfl, hk, hp, he⟩ := (left_next hm (hd'.2 w hw)).resolve_left hnl
    have hothers : ∀ w' ∈ x.workers, w' ≠ w → hasLeft s.pool w' = true := by
      intro w' hw' hne
      rcases left_next hm (hd'.2 w' hw') with hl | ⟨cid', k', hl, -⟩
      · exact hl
      · cases hl; exact absurd rfl hne
    have hlast : LastLeaves s (.worker (.claim w cid [])) := by
      cases drives_of_poolAct hst ha with
      | worker => exact hcond.2.1
    have hfin := finished_of_lastLeaves hr hk hp he hx (hok e x hx) hg hw hothers hlast
    rcases (mem_next hreach hpool).mp hr' with ⟨r, hrow, rfl⟩ | hnew
    · rw [(rowNext_sameKey _ _ r).2.1] at hj'
      have ht := hfin r hrow hj'
      rw [rowNext_terminal _ _ ht]; exact ht
    · simp [rowsNew, txOf, hk, rowsAdded] at hnew

end inv

/-! ## Headline -/

section runs
variable {text : Json → String} {s : SState}

theorem execOk_reachable (h : ((system text).restrict Settled).Reachable s) :
    ∀ e x, s.execs e = some x → ExecOk s x := by
  refine h.induct (I := fun s => ∀ e x, s.execs e = some x → ExecOk s x) ?_ ?_
  · rintro _ ⟨now, rfl⟩ e x hx; cases hx
  · intro s l v hr hi hst
    exact execOk_step hr.of_restrict hi hst.1 hst.2.1

theorem drained_reachable (h : ((system text).restrict Settled).Reachable s) :
    DrainedFinished s := by
  refine h.induct (I := DrainedFinished) ?_ ?_
  · rintro _ ⟨now, rfl⟩ e x hx; cases hx
  · intro s l v hr hi hst
    exact drained_step hr.of_restrict (execOk_reachable hr) hi hst.1 hst.2

/-- **A COMPLETED job has no unfinished row**, in every run in which the last
worker of an execution leaves while nobody else owns a row of the job, and no
ingest adds an unfinished row after that. -/
theorem completed_finished (h : ((system text).restrict Settled).Reachable s) :
    ∀ e v, (system text).step s (.setCompleted e) v → ∃ x, s.execs e = some x ∧
      ∀ r ∈ v.pool.items.rows, r.jobId = x.job → r.status.terminal = true := by
  intro e v hst
  cases change_of_step hst with
  | setCompleted hx hp =>
    have hok := execOk_reachable h e _ hx
    have hg : Pc.gathering .gathered = true := rfl
    refine ⟨_, hx, fun r hr hj => ?_⟩
    exact drained_reachable h e _ hx (by rw [hp]; exact hg)
      ⟨(hok.sized (by rw [hp]; exact hg)).1, hok.left hp⟩ r hr hj

end runs

/-! ## Non-vacuity -/

def drained (s : SState) (x : Execution) : Bool :=
  !x.workers.isEmpty && x.workers.all (hasLeft s.pool)

/-- `Sized`, `LastLeaves` and `IngestOver` on the executions `es`. -/
def sizedIn (t : Trans SState SAct) : Bool :=
  match t.lbl with
  | .engineStart e _ => (t.pre.execs e).all fun x =>
    1 ≤ x.settings.workerPoolSize && 1 ≤ x.settings.chunkSize
  | _ => true

def lastLeavesIn (es : List ExecId) (t : Trans SState SAct) : Bool :=
  match t.lbl with
  | .worker (.claim w _ []) => es.all fun e => (t.pre.execs e).all fun x =>
    !x.workers.contains w || !(x.workers.all fun w' => w' = w || hasLeft t.pre.pool w') ||
      t.pre.pool.items.rows.all fun r => r.jobId ≠ x.job || r.status ≠ .claimed ||
        x.workers.any fun w' => r.workerId = some w'
  | _ => true

def ingestOverIn (es : List ExecId) (t : Trans SState SAct) : Bool :=
  es.all fun e => (t.pre.execs e).all fun x => !x.pc.gathering || !drained t.pre x ||
    (poolAct t.pre t.lbl).all fun a => (rowsNew t.pre.pool a).all fun r =>
      r.jobId ≠ x.job || r.status.terminal

section check
variable {t : Trans SState SAct} {es : List ExecId}

theorem sized_of_check (h : sizedIn t = true) : Sized t.pre t.lbl := by
  intro e ws x hl hx
  rw [sizedIn, hl] at h
  simpa [hx] using h

theorem lastLeaves_of_check (hes : ∀ e x, t.pre.execs e = some x → e ∈ es)
    (h : lastLeavesIn es t = true) : LastLeaves t.pre t.lbl := by
  intro w cid e x hl hx hw hothers r hr hj hc
  rw [lastLeavesIn, hl] at h
  have := List.all_eq_true.mp h e (hes e x hx)
  rw [hx, Option.all_some, Bool.or_eq_true, Bool.or_eq_true] at this
  rcases this with (h1 | h1) | h1
  · simp [hw] at h1
  · exfalso
    rw [Bool.not_eq_true', List.all_eq_false] at h1
    obtain ⟨w', hw', hn⟩ := h1
    rw [Bool.or_eq_true, decide_eq_true_eq, not_or] at hn
    exact hn.2 (hothers w' hw' hn.1)
  · have := List.all_eq_true.mp h1 r hr
    simpa [hj, hc] using this

theorem ingestOver_of_check (hes : ∀ e x, t.pre.execs e = some x → e ∈ es)
    (h : ingestOverIn es t = true) : IngestOver t.pre t.lbl := by
  intro e x hx hg hd a ha r hr hj
  have := List.all_eq_true.mp h e (hes e x hx)
  have hdr : drained t.pre x = true := by
    rw [drained, Bool.and_eq_true, List.all_eq_true, Bool.not_eq_true', List.isEmpty_eq_false_iff]
    exact hd
  rw [hx, Option.all_some, hg, hdr, ha, Option.all_some] at this
  have hall : ∀ r ∈ rowsNew t.pre.pool a, ¬ r.jobId = x.job ∨ r.status.terminal = true := by
    simpa using this
  exact (hall r hr).resolve_left fun hne => hne hj

end check

def oneWorker : Settings := { workerPoolSize := 1 }

/-- An input file with one prompt. -/
def fileA : List Json := [.obj [("id", .str "a"), ("prompt", .str "hi")]]

/-- The process dies with the row claimed, and another one resumes the job. -/
def resumeRun (wait : Nat) : List SAct :=
  [.submit 0 "j" "in.json" none oneWorker, .setIngesting 0 fileA, .flush 0, .setTotal 0,
    .setRunning 0, .engineStart 0 ["w1"], .worker (.claim "w1" chunk1 [⟨1, "a", "hi", 1⟩]),
    .crash [0], .worker (.tick wait), .resume [1] oneWorker, .setIngesting 1 fileA, .flush 1,
    .setTotal 1, .setRunning 1, .engineStart 1 ["w2"]]

/-- The lease of `w1` has not run out when `w2` asks for work. -/
def earlyResume : List SAct :=
  resumeRun 0 ++ [.worker (.claim "w2" chunk2 []), .gathered 1]

/-- The lease of `w1` has run out. -/
def lateResume : List SAct :=
  resumeRun 120000001 ++ [.worker (.claim "w2" chunk2 [⟨1, "a", "hi", 2⟩]),
    .worker (.processed "w2" (answer "two") (fun _ => 5)), .worker (.written "w2"),
    .worker (.complete "w2" 1), .worker (.claim "w2" chunk1 []), .gathered 1]

/-- In `earlyResume` the job is set COMPLETED with its row CLAIMED. -/
theorem completed_unfinished : ¬ ∀ s, ((system noText).restrict Sized).Reachable s →
    ∀ e v, (system noText).step s (.setCompleted e) v → ∃ x, s.execs e = some x ∧
      ∀ r ∈ v.pool.items.rows, r.jobId = x.job → r.status.terminal = true := by
  intro h
  obtain ⟨⟨tr, s⟩, he, hq, hs⟩ : ∃ p, LTS.exec (sysStep noText) (.init 0) earlyResume = some p ∧
      (∀ t ∈ p.1, sizedIn t = true) ∧
      (sysStep noText p.2 (.setCompleted 1)).any (fun v => v.pool.items.rows.any fun r =>
        (p.2.execs 1).all (fun x => r.jobId = x.job) && !r.status.terminal) = true :=
    ⟨_, rfl, by decide +kernel, by decide +kernel⟩
  have hr : ((system noText).restrict Sized).Run tr s :=
    restrict_of_created ⟨_, ⟨0, rfl⟩, LTS.path_of_exec he⟩ fun t ht _ => sized_of_check (hq t ht)
  obtain ⟨v, hv, hrow⟩ := (Option.any_eq_true _ _).mp hs
  obtain ⟨r, hm, hp⟩ := List.any_eq_true.mp hrow
  obtain ⟨x, hx, hall⟩ := h s hr.reachable 1 v hv
  rw [hx, Option.all_some, Bool.and_eq_true, decide_eq_true_eq] at hp
  have := hall r hm hp.1
  rw [this] at hp; cases hp.2

theorem completed_finished_resumed : ∃ s v, ((system noText).restrict Settled).Reachable s ∧
    (system noText).step s (.setCompleted 1) v ∧ ∃ x, s.execs 1 = some x ∧
      ∀ r ∈ v.pool.items.rows, r.jobId = x.job → r.status.terminal = true := by
  obtain ⟨⟨tr, s⟩, he, hq, hs⟩ : ∃ p, LTS.exec (sysStep noText) (.init 0) lateResume = some p ∧
      (∀ t ∈ p.1, (sizedIn t && lastLeavesIn (p.1.flatMap fun t => createdBy t.lbl) t &&
        ingestOverIn (p.1.flatMap fun t => createdBy t.lbl) t) = true) ∧
      (sysStep noText p.2 (.setCompleted 1)).isSome = true :=
    ⟨_, rfl, by decide +kernel, by decide +kernel⟩
  have hr : ((system noText).restrict Settled).Run tr s := by
    refine restrict_of_created ⟨_, ⟨0, rfl⟩, LTS.path_of_exec he⟩ fun t ht hes => ?_
    have := hq t ht
    rw [Bool.and_eq_true, Bool.and_eq_true] at this
    exact ⟨sized_of_check this.1.1, lastLeaves_of_check hes this.1.2,
      ingestOver_of_check hes this.2⟩
  obtain ⟨v, hv⟩ := Option.isSome_iff_exists.mp hs
  exact ⟨s, v, hr.reachable, hv, completed_finished hr.reachable 1 v hv⟩

end BatchSystem.Service
