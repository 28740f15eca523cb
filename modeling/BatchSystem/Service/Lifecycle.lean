import BatchSystem.Queue.Transactions
import BatchSystem.Service.JobRepository

/-!
# The life of a row

Four statements write the table, each under its own guard. `Lifecycle` is the
diagram that they have to respect (docs/diagrams/05_item_state.mmd, where a
re-claim goes over PENDING), `lifecycle_step` says that each does, and
`outcomes_final` takes it over any sequence of transactions: a finished row
stays what it is, so the counts of finished rows never fall.
-/
namespace BatchSystem.Service

open BatchSystem.Core Domain Queue

/-- What may become of a row in one transaction at `now`. -/
inductive Lifecycle (now : Int) (r r' : ItemRow) : Prop
  | kept (hs : r'.status = r.status) (hw : r'.workerId = r.workerId)
      (ha : r'.attempts = r.attempts)
  | claimed (h : r.status = .pending) (h' : r'.status = .claimed)
  | reclaimed (h : r.status = .claimed) (hl : leaseExpired now r = true)
      (h' : r'.status = .claimed)
  | finished (h : r.status = .claimed) (h' : r'.status = .succeeded ∨ r'.status = .failed)

theorem terminal_iff {st : ItemStatus} : st.terminal = true ↔ st = .succeeded ∨ st = .failed := by
  cases st <;> simp [ItemStatus.terminal]

section step
variable {s v : QState} {l : Tx}

theorem lifecycle_step (hst : txStep s l = some v) (r : ItemRow) :
    Lifecycle s.now r (rowAfter s l r) := by
  cases l with
  | tick | bulkInsert => exact .kept rfl rfl rfl
  | claimChunk job w size secs chunk =>
    simp only [rowAfter]
    split
    · rename_i hm
      obtain ⟨-, hp | ⟨hc, he⟩⟩ := claimable_iff.mp (mem_claimed hm).2
      · exact .claimed hp rfl
      · exact .reclaimed hc he rfl
    · exact .kept rfl rfl rfl
  | completeItems w results ref n =>
    simp only [txStep, Option.ite_none_right_eq_some] at hst
    simp only [rowAfter, completeRow]
    split
    · rename_i ho
      split
      · rename_i res hres
        have ht := hst.1.1 res (mem_recordFor hres).1
        exact .finished (ownedBy_iff.mp ho).2 (terminal_iff.mp ht)
      · exact .kept rfl rfl rfl
    · exact .kept rfl rfl rfl
  | renewLease w secs =>
    simp only [rowAfter]
    split <;> exact .kept rfl rfl rfl

theorem countByStatus_step (hst : txStep s l = some v) (job : JobId) {st : ItemStatus}
    (ht : st.terminal = true) :
    countByStatus s.items job st ≤ countByStatus v.items job st := by
  unfold countByStatus
  rw [txStep_rows hst, List.countP_append, List.countP_map]
  have hmono : s.items.rows.countP (fun r => r.jobId == job && r.status == st) ≤
      s.items.rows.countP ((fun r => r.jobId == job && r.status == st) ∘ rowAfter s l) := by
    refine List.countP_mono_left fun r _ hr => ?_
    rw [Bool.and_eq_true, beq_iff_eq, beq_iff_eq] at hr
    rw [Function.comp_apply, rowAfter_terminal s l (by rw [hr.2]; exact ht)]
    simp [hr]
  omega

end step

section path
variable {s v : QState} {tr : List (Trans QState Tx)}

/-- A row stays, and a finished one as it is. -/
theorem row_stays (hp : queue.Path s tr v) : ∀ r ∈ s.items.rows, ∃ r' ∈ v.items.rows,
    r.SameKey r' ∧ (r.status.terminal = true → r' = r) := by
  induction hp with
  | nil => exact fun r hr => ⟨r, hr, .refl r, fun _ => rfl⟩
  | @snoc tr u v l hp hst ih =>
    intro r hr
    obtain ⟨r₁, hr₁, hk, hf⟩ := ih r hr
    refine ⟨rowAfter u l r₁, rowAfter_mem hst hr₁, hk.trans (rowAfter_sameKey u l r₁), fun ht => ?_⟩
    obtain rfl := hf ht
    exact rowAfter_terminal u l ht

theorem countByStatus_mono (hp : queue.Path s tr v) (job : JobId) {st : ItemStatus}
    (ht : st.terminal = true) :
    countByStatus s.items job st ≤ countByStatus v.items job st := by
  induction hp with
  | nil => exact Nat.le_refl _
  | snoc hp hst ih => exact ih.trans (countByStatus_step hst job ht)

/-- **Row outcomes are final and follow the lifecycle**, over any sequence of
transactions. -/
theorem outcomes_final (hp : queue.Path s tr v) :
    (∀ r ∈ s.items.rows, ∃ r' ∈ v.items.rows, r.SameKey r' ∧
      (r.status.terminal = true → r' = r)) ∧
    (∀ t ∈ tr, ∀ r ∈ t.pre.items.rows, ∃ r' ∈ t.post.items.rows, r.SameKey r' ∧
      Lifecycle t.pre.now r r') ∧
    ∀ (jobs jobs' : Jobs) (job : JobId) (st st' : JobStatus),
      jobs.getStatus s.items job = some st → jobs'.getStatus v.items job = some st' →
        st.succeeded ≤ st'.succeeded ∧ st.failed ≤ st'.failed := by
  refine ⟨row_stays hp, fun t ht r hr => ?_, fun jobs jobs' job st st' h h' => ?_⟩
  · have hst := hp.mem_step ht
    exact ⟨rowAfter t.pre t.lbl r, rowAfter_mem hst hr, rowAfter_sameKey _ _ r,
      lifecycle_step hst r⟩
  · obtain ⟨row, -, rfl⟩ := Option.map_eq_some_iff.mp h
    obtain ⟨row', -, rfl⟩ := Option.map_eq_some_iff.mp h'
    exact ⟨countByStatus_mono hp job rfl, countByStatus_mono hp job rfl⟩

end path

/-! ## Non-vacuity -/

/-- A completed row, a late completion by its former owner and a replayed insert. -/
def replayRun : List Tx :=
  [.bulkInsert "j" [⟨"a", "hi"⟩] [] 1, .claimChunk "j" "w1" 50 60 [⟨1, "a", "hi", 1⟩],
    .tick 60000001, .claimChunk "j" "w2" 50 60 [⟨1, "a", "hi", 2⟩],
    .completeItems "w2" [⟨"a", .succeeded, some "ok", none, 1, some 5⟩] "r2" 1,
    .completeItems "w1" [⟨"a", .failed, none, some "no", 1, some 5⟩] "r1" 0,
    .bulkInsert "j" [] [⟨"a", .failed, none, some "no", 0, none⟩] 0]

/-- From the completion on the row is the same. -/
theorem outcomes_final_replay : ∃ s v tr, queue.Path s tr v ∧ tr.length = 2 ∧
    ∃ r ∈ s.items.rows, r.status = .succeeded ∧ r ∈ v.items.rows := by
  obtain ⟨⟨tr₁, s⟩, -, ⟨tr₂, v⟩, he, hlen, hs⟩ : ∃ p,
      LTS.exec txStep ⟨0, .empty⟩ (replayRun.take 5) = some p ∧ ∃ q,
        LTS.exec txStep p.2 (replayRun.drop 5) = some q ∧ q.1.length = 2 ∧
          p.2.items.rows.any (fun r => r.status = .succeeded) = true :=
    ⟨_, rfl, _, rfl, rfl, by decide⟩
  have hp : queue.Path s tr₂ v := LTS.path_of_exec he
  obtain ⟨r, hr, hst⟩ := List.any_eq_true.mp hs
  have hst : r.status = .succeeded := of_decide_eq_true hst
  obtain ⟨r', hr', -, hf⟩ := (outcomes_final hp).1 r hr
  obtain rfl := hf (by rw [hst]; rfl)
  exact ⟨s, v, tr₂, hp, hlen, r', hr, hst, hr'⟩

end BatchSystem.Service
