import BatchSystem.Queue.Repository

/-!
# `PgJobRepository`

The `jobs` table with its primary key as a field. `created_at` and
`updated_at` are read by no modelled code and left out, and so is `config`,
which is stored and never read.
-/
namespace BatchSystem.Service

open Domain Queue

/-- mirrors app/infrastructure/db/models.py:31-49 -/
structure JobRow where
  id : JobId
  state : JobState
  inputPath : String
  model : String
  totalItems : Nat := 0
  error : Option String := none
  deriving DecidableEq, Repr

structure Jobs where
  rows : List JobRow
  pkey : (rows.map JobRow.id).Nodup

/-- mirrors app/domain/models.py:51-62 -/
structure JobStatus where
  jobId : JobId
  state : JobState
  total : Nat
  pending : Nat
  inProgress : Nat
  succeeded : Nat
  failed : Nat
  deriving DecidableEq, Repr

namespace Jobs

def empty : Jobs := ⟨[], .nil⟩

/-- An id that exists already breaks the primary key.
mirrors app/infrastructure/db/repositories/job_repository.py:19-31 -/
def create (t : Jobs) (job : JobRow) : Option Jobs :=
  if h : job.id ∈ t.rows.map JobRow.id then none
  else some
    { rows := t.rows ++ [job]
      pkey := by
        rw [List.map_append, List.map_singleton]
        exact List.nodup_append.mpr ⟨t.pkey, by simp, fun a ha b hb => by
          obtain rfl := List.mem_singleton.mp hb
          rintro rfl; exact h ha⟩ }

/-- mirrors app/infrastructure/db/repositories/job_repository.py:33-48 -/
def get (t : Jobs) (job : JobId) : Option JobRow := t.rows.find? fun r => r.id = job

/-- `UPDATE jobs SET f WHERE id = job`. -/
def update (t : Jobs) (job : JobId) (f : JobRow → JobRow) (hf : ∀ r, (f r).id = r.id) : Jobs where
  rows := t.rows.map fun r => if r.id = job then f r else r
  pkey := by
    rw [List.map_map]
    have : (JobRow.id ∘ fun r => if r.id = job then f r else r) = JobRow.id := by
      funext r
      simp only [Function.comp]
      split
      · exact hf r
      · rfl
    rw [this]
    exact t.pkey

/-- mirrors app/infrastructure/db/repositories/job_repository.py:50-58 -/
def setState (t : Jobs) (job : JobId) (state : JobState) (error : Option String) : Jobs :=
  t.update job (fun r => { r with state, error }) fun _ => rfl

/-- mirrors app/infrastructure/db/repositories/job_repository.py:60-64 -/
def setTotal (t : Jobs) (job : JobId) (total : Nat) : Jobs :=
  t.update job (fun r => { r with totalItems := total }) fun _ => rfl

/-- mirrors app/infrastructure/db/repositories/job_repository.py:66-75 -/
def listActive (t : Jobs) : List (JobId × String) :=
  (t.rows.filter fun r => r.state = .ingesting ∨ r.state = .running).map fun r =>
    (r.id, r.inputPath)

/-- `none` is the `KeyError` of a job that is not there.
mirrors app/infrastructure/db/repositories/job_repository.py:77-98 -/
def getStatus (t : Jobs) (items : PromptItems) (job : JobId) : Option JobStatus :=
  (t.get job).map fun r =>
    { jobId := r.id, state := r.state, total := r.totalItems,
      pending := countByStatus items job .pending,
      inProgress := countByStatus items job .claimed,
      succeeded := countByStatus items job .succeeded,
      failed := countByStatus items job .failed }

theorem get_update (t : Jobs) (job : JobId) (f : JobRow → JobRow) (hf : ∀ r, (f r).id = r.id)
    (job' : JobId) : (t.update job f hf).get job' =
      (t.get job').map fun r => if r.id = job then f r else r := by
  have hp : ((fun r : JobRow => decide (r.id = job')) ∘ fun r => if r.id = job then f r else r) =
      fun r => decide (r.id = job') := by
    funext r
    simp only [Function.comp]
    split
    · rw [hf r]
    · rfl
  rw [get, update, List.find?_map, hp]
  rfl

theorem get_id {t : Jobs} {job : JobId} {r : JobRow} (h : t.get job = some r) : r.id = job := by
  simpa using List.find?_some h

theorem get_eq_none {t : Jobs} {job : JobId} (h : job ∉ t.rows.map JobRow.id) :
    t.get job = none := by
  unfold get
  rw [List.find?_eq_none]
  intro r hr he
  exact h (of_decide_eq_true he ▸ List.mem_map_of_mem hr)

theorem get_update_self {t : Jobs} {job : JobId} {r : JobRow} (h : t.get job = some r)
    (f : JobRow → JobRow) (hf : ∀ r, (f r).id = r.id) : (t.update job f hf).get job = some (f r) := by
  rw [get_update, h, Option.map_some, if_pos (get_id h)]

theorem get_update_ne {job job' : JobId} (h : job ≠ job') (t : Jobs) (f : JobRow → JobRow)
    (hf : ∀ r, (f r).id = r.id) : (t.update job f hf).get job' = t.get job' := by
  rw [get_update]
  cases hr : t.get job' with
  | none => rfl
  | some r => rw [Option.map_some, if_neg fun he => h (he.symm.trans (get_id hr))]

theorem get_of_create {t t' : Jobs} {row : JobRow} (h : t.create row = some t') :
    t.get row.id = none := by
  unfold create at h
  split at h
  · cases h
  · rename_i hnew
    exact get_eq_none hnew

theorem get_create {t t' : Jobs} {row : JobRow} (h : t.create row = some t') (job : JobId) :
    t'.get job = if row.id = job then some row else t.get job := by
  have hnone := get_of_create h
  unfold create at h
  split at h
  · cases h
  · cases h
    unfold get at hnone ⊢
    rw [List.find?_append, List.find?_singleton]
    by_cases hj : row.id = job
    · rw [hj] at hnone
      simp [hnone, hj]
    · simp [hj]

end Jobs
end BatchSystem.Service
