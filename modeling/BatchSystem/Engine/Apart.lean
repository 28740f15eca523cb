import BatchSystem.Core.Lists
import BatchSystem.Core.Purge
import BatchSystem.Engine.Fencing

/-!
# Jobs do not disturb each other

All jobs share one queue table, one result store and the worker pool, and
`renew_lease` and `complete_items` name a worker but no job. Yet the workers of
the other jobs can be left out of a run: what remains is a run, and it leaves
the job with the same rows, files and workers (`jobs_apart`).

* `concerns`: the steps that a job can see. Ingests of other jobs are among
  them, since they draw row ids.
* `rowNext_hidden`, `rowNext_shown`: what a step does to the rows of the job.
* `alike_hidden`, `alike_shown`: the conditions of `Unwinds`, step by step.
-/
namespace BatchSystem.Engine

open BatchSystem.Core Domain Queue Storage PState

/-- The step is of a worker of the job, of an ingest, the clock, or a crash. -/
def concerns (job : JobId) (s : PState) : Act → Bool
  | .tick _ | .bulkInsert .. | .crash _ => true
  | .start _ job' _ => job' = job
  | .claim w _ _ | .renew w | .renewFails w | .processed w _ _ | .writePart w _ _ | .written w
  | .complete w _ | .raise w => (s.workers w).any fun k => k.job = job

/-- A row of the job is the same, any other one has at least the same key. -/
def RowAlike (job : JobId) (r r' : ItemRow) : Prop := r.SameKey r' ∧ (r.jobId = job → r' = r)

/-- `s'` is `s` without the workers of other jobs and what they did. -/
structure Alike (job : JobId) (s s' : PState) : Prop where
  now : s'.now = s.now
  nextId : s'.items.nextId = s.items.nextId
  rows : List.Forall₂ (RowAlike job) s.items.rows s'.items.rows
  files : s'.files = s.files.filter fun f => f.jobId = job
  workers : ∀ w, s'.workers w = (s.workers w).filter fun k => k.job = job
  chunks : s'.usedChunks ⊆ s.usedChunks

section table
variable {job : JobId} {xs ys : List ItemRow}

theorem RowAlike.jobId_eq {r r' : ItemRow} (h : RowAlike job r r') : r'.jobId = r.jobId := h.1.2.1

theorem sameKey_symm {r r' : ItemRow} (h : r.SameKey r') : r'.SameKey r :=
  ⟨h.1.symm, h.2.1.symm, h.2.2.1.symm, h.2.2.2.symm⟩

theorem RowAlike.refl (job : JobId) (r : ItemRow) : RowAlike job r r := ⟨.refl r, fun _ => rfl⟩

/-- A condition that only rows of the job meet selects the same rows. -/
theorem alike_filter (h : List.Forall₂ (RowAlike job) xs ys) {p : ItemRow → Bool}
    (hp : ∀ r, p r = true → r.jobId = job) : ys.filter p = xs.filter p := by
  induction h with
  | nil => rfl
  | @cons r r' xs ys hr h ih =>
    by_cases hj : r.jobId = job
    · rw [hr.2 hj, List.filter_cons, List.filter_cons, ih]
    · have h₁ : p r ≠ true := fun hp' => hj (hp r hp')
      have h₂ : p r' ≠ true := fun hp' => hj (hr.jobId_eq.symm.trans (hp r' hp'))
      rw [List.filter_cons_of_neg h₁, List.filter_cons_of_neg h₂, ih]

theorem alike_keys (h : List.Forall₂ (RowAlike job) xs ys) :
    ys.map ItemRow.key = xs.map ItemRow.key := by
  induction h with
  | nil => rfl
  | cons hr h ih => rw [List.map_cons, List.map_cons, hr.1.key_eq, ih]

end table

/-! ## Row ids and files -/

section store
variable {job : JobId} {files : List ChunkFile} {f : ChunkFile}

/-- The ids that a step draws from the sequence of the table. -/
def drawn : Act → Nat
  | .bulkInsert job items failed => (insertRows job items failed).length
  | _ => 0

theorem nextId_move {s v : PState} {a : Act} (hm : Move s a v) :
    v.items.nextId = s.items.nextId + drawn a := by
  cases hm with
  | bulkInsert job items failed => exact bulkInsert_nextId _ _ _ _
  | complete => exact completeItems_nextId _ _ _ _
  | _ => rfl

theorem any_filter (hf : f.jobId = job) :
    ((files.filter fun g => g.jobId = job).any fun g => g.jobId = f.jobId ∧ g.chunkId = f.chunkId) =
      files.any fun g => g.jobId = f.jobId ∧ g.chunkId = f.chunkId := by
  rw [List.any_filter]
  refine congrArg files.any (funext fun g => ?_)
  by_cases hg : g.jobId = f.jobId
  · simp [hg, hf]
  · simp [hg]

/-- Writing a file of the job, among its files. -/
theorem putFile_filter (hf : f.jobId = job) :
    putFile (files.filter fun g => g.jobId = job) f =
      (putFile files f).filter fun g => g.jobId = job := by
  unfold putFile
  rw [any_filter hf]
  split
  · rw [List.filter_map]
    refine congrArg _ (List.filter_congr fun g _ => ?_)
    by_cases hg : g.jobId = f.jobId ∧ g.chunkId = f.chunkId
    · simp [hg.1, hg.2]
    · simp [hg]
  · rw [List.filter_append, List.filter_cons_of_pos (by simp [hf]), List.filter_nil]

/-- Writing a file of another job. -/
theorem putFile_filter_other (hf : f.jobId ≠ job) :
    (putFile files f).filter (fun g => g.jobId = job) = files.filter fun g => g.jobId = job := by
  unfold putFile
  split
  · clear * - hf
    induction files with
    | nil => rfl
    | cons g files ih =>
      rw [List.map_cons, List.filter_cons, List.filter_cons, ih]
      by_cases hg : g.jobId = f.jobId ∧ g.chunkId = f.chunkId
      · rw [if_pos hg, if_neg (by simpa using hf), if_neg (by simpa [hg.1] using hf)]
      · rw [if_neg hg]
  · rw [List.filter_append, List.filter_cons_of_neg (by simpa using hf), List.filter_nil,
      List.append_nil]

end store

/-! ## The rows of the job -/

section steps
variable {job : JobId} {s v s' : PState} {a : Act}

/-- A hidden step is of a worker of another job. -/
theorem hidden_job {w : WorkerId} {k : Worker} (hk : s.workers w = some k)
    (hc : (s.workers w).any (fun k => k.job = job) = false) : k.job ≠ job := by
  intro he
  simp [hk, he] at hc

/-- A worker of another job can neither claim a row of the job nor own one. -/
theorem rowNext_hidden (hr : pool.Reachable s) (hst : pool.step s a v)
    (hc : concerns job s a = false) {r : ItemRow} (hrow : r ∈ s.items.rows) (hj : r.jobId = job) :
    rowNext s a r = r := by
  subst hj
  cases move_of_step hst with
  | @leave w k _ hk | @claim w k _ _ hk =>
    have hne := hidden_job hk hc
    rw [rowNext_claim hk, if_neg fun hin => hne (claimable_iff.mp (mem_claimed hin).2).1.symm]
  | @renew w k _ _ _ hk =>
    have hne := hidden_job hk hc
    rw [rowNext_renew hk, if_neg fun ho => hne (owned_item hr hk hrow ho).1]
  | @complete w k _ _ _ _ hk _ hp =>
    have hne := hidden_job hk hc
    rw [rowNext_complete hk hp]
    refine completeRow_of_not_owned ?_ _ _
    by_contra ho
    exact hne (owned_item hr hk hrow (Bool.eq_true_of_not_eq_false ho)).1
  | tick | bulkInsert | crash => cases hc
  | start | renewFails | processed | dropped | writePart | written | raise => rfl

theorem rowsNew_hidden (hc : concerns job s a = false) : rowsNew s a = [] := by
  refine List.eq_nil_iff_forall_not_mem.mpr fun r hr => ?_
  obtain ⟨items, failed, rfl⟩ := rowsNew_job hr
  cases hc

/-- A worker of the job, seen from both states. -/
theorem Alike.worker (h : Alike job s s') {w : WorkerId} {k : Worker} (hk : s.workers w = some k)
    (hc : (s.workers w).any (fun k => k.job = job) = true) :
    k.job = job ∧ s'.workers w = some k := by
  have hj : k.job = job := by simpa [hk] using hc
  refine ⟨hj, ?_⟩
  rw [h.workers, hk]
  exact Option.filter_eq_some_iff.mpr ⟨rfl, decide_eq_true hj⟩

theorem Alike.claimed_eq (h : Alike job s s') (size : Nat) :
    claimed s'.items job size s'.now = claimed s.items job size s.now := by
  unfold claimed
  rw [h.now, alike_filter h.rows fun r hp => (claimable_iff.mp hp).1]

/-- A step makes the same of a row from both states. -/
theorem rowNext_shown (h : Alike job s s') (hst : pool.step s a v)
    (hc : concerns job s a = true) (r : ItemRow) : rowNext s' a r = rowNext s a r := by
  cases move_of_step hst with
  | leave hk | claim hk =>
    obtain ⟨hkj, hk'⟩ := h.worker hk hc
    rw [rowNext_claim hk, rowNext_claim hk', hkj, h.claimed_eq, h.now]
  | renew hk =>
    obtain ⟨-, hk'⟩ := h.worker hk hc
    rw [rowNext_renew hk, rowNext_renew hk', h.now]
  | complete hk _ hp =>
    obtain ⟨-, hk'⟩ := h.worker hk hc
    rw [rowNext_complete hk hp, rowNext_complete hk' hp]
  | tick | bulkInsert | crash | start | renewFails | processed | dropped | writePart | written
  | raise => rfl

theorem rowsNew_alike (h : Alike job s s') : rowsNew s' a = rowsNew s a := by
  have hnone : ∀ p : PState, (∀ job items failed, a ≠ .bulkInsert job items failed) →
      rowsNew p a = [] := by
    intro p hn
    refine List.eq_nil_iff_forall_not_mem.mpr fun r hr => ?_
    obtain ⟨items, failed, he⟩ := rowsNew_job hr
    exact hn _ _ _ he
  cases a with
  | bulkInsert job' items failed =>
    show s'.items.freshRows _ = s.items.freshRows _
    unfold PromptItems.freshRows
    rw [alike_keys h.rows, h.nextId]
  | _ => rw [hnone s' (by simp), hnone s (by simp)]

/-! ## The conditions of `Unwinds` -/

/-- Worker `w` of the other job, before and after its step. -/
theorem filter_setWorker {p : PState} {w : WorkerId} {k k' : Worker} (hj : k.job ≠ job)
    (hk : p.workers w = some k) (hk' : k'.job = k.job) (x : WorkerId) :
    ((p.setWorker w k').workers x).filter (fun k => k.job = job) =
      (p.workers x).filter fun k => k.job = job := by
  by_cases hx : x = w
  · subst hx
    rw [setWorker_same, hk]
    simp [Option.filter, hk', hj]
  · rw [setWorker_ne hx]

theorem hidden_workers (hm : Move s a v) (hc : concerns job s a = false) (x : WorkerId) :
    (v.workers x).filter (fun k => k.job = job) = (s.workers x).filter fun k => k.job = job := by
  cases hm with
  | @start ws job' settings hfree =>
    have hj : job' ≠ job := by simpa [concerns] using hc
    show ((if x ∈ ws then _ else _ : Option Worker)).filter _ = _
    split
    · rename_i hx
      rw [hfree x hx]
      simp [Option.filter, hj]
    · rfl
  | leave hk | claim hk | renew hk | renewFails hk | processed hk | dropped hk | written hk
  | complete hk | raise hk => exact filter_setWorker (hidden_job hk hc) hk (by rfl) x
  | writePart => rfl
  | tick | bulkInsert | crash => cases hc

theorem hidden_files (hm : Move s a v) (hc : concerns job s a = false) :
    (v.files.filter fun f => f.jobId = job) = s.files.filter fun f => f.jobId = job := by
  cases hm with
  | writePart _ _ hk | written hk => exact putFile_filter_other (hidden_job hk hc)
  | tick | bulkInsert | crash => cases hc
  | _ => rfl

theorem usedChunks_grow (hm : Move s a v) : s.usedChunks ⊆ v.usedChunks := by
  cases hm with
  | claim => exact List.subset_cons_self _ _
  | _ => exact List.Subset.refl _

theorem alike_hidden (hr : pool.Reachable s) (hst : pool.step s a v)
    (hc : concerns job s a = false) (h : Alike job s s') : Alike job v s' := by
  have hm := move_of_step hst
  refine ⟨?_, ?_, ?_, ?_, fun w => ?_, List.Subset.trans h.chunks (usedChunks_grow hm)⟩
  · rw [h.now]
    cases hm with
    | tick => cases hc
    | _ => rfl
  · rw [h.nextId, nextId_move hm]
    cases hm with
    | bulkInsert => cases hc
    | _ => rfl
  · rw [step_rows hr hst, rowsNew_hidden hc, List.append_nil, List.forall₂_map_left_iff]
    refine forall₂_imp_mem h.rows fun r hrow r' _ hrr => ⟨?_, fun hj => ?_⟩
    · exact (sameKey_symm (rowNext_sameKey s a r)).trans hrr.1
    · have hj' : r.jobId = job := (rowNext_sameKey s a r).2.1.symm.trans hj
      rw [rowNext_hidden hr hst hc hrow hj', hrr.2 hj']
  · rw [h.files, hidden_files hm hc]
  · rw [h.workers, hidden_workers hm hc]

theorem setWorker_filter {p p' : PState} {k : Worker}
    (h : ∀ x, p'.workers x = (p.workers x).filter fun k => k.job = job) (hj : k.job = job)
    (w x : WorkerId) : (p'.setWorker w k).workers x =
      ((p.setWorker w k).workers x).filter fun k => k.job = job := by
  by_cases hx : x = w
  · subst hx
    rw [setWorker_same, setWorker_same]
    simp [Option.filter, hj]
  · rw [setWorker_ne hx, setWorker_ne hx, h]

/-- What a step leaves besides the table. -/
structure Follows (job : JobId) (v v' : PState) : Prop where
  now : v'.now = v.now
  files : v'.files = v.files.filter fun f => f.jobId = job
  workers : ∀ w, v'.workers w = (v.workers w).filter fun k => k.job = job
  chunks : v'.usedChunks ⊆ v.usedChunks

/-- The rows that a worker owns are the same. -/
theorem Alike.owned_count (h : Alike job s s') (hr : pool.Reachable s) (hr' : pool.Reachable s')
    {w : WorkerId} {k : Worker} (hk : s.workers w = some k) (hk' : s'.workers w = some k)
    (hj : k.job = job) (p : ItemRow → Bool) :
    s'.items.rows.countP (fun r => ownedBy w r && p r) =
      s.items.rows.countP fun r => ownedBy w r && p r := by
  have hown : ∀ q : PState, pool.Reachable q → q.workers w = some k →
      (q.items.rows.countP fun r => ownedBy w r && p r) =
        (q.items.rows.filter fun r => r.jobId = job && (ownedBy w r && p r)).length := by
    intro q hq hkq
    rw [List.countP_eq_length_filter]
    refine congrArg _ (List.filter_congr fun r hrow => ?_)
    cases ho : ownedBy w r with
    | false => simp
    | true => simp [(owned_item hq hkq hrow ho).1.symm, hj]
  rw [hown s' hr' hk', hown s hr hk, alike_filter h.rows fun r hp => by simp_all]

theorem shown_step (hr : pool.Reachable s) (hr' : pool.Reachable s') (hst : pool.step s a v)
    (hc : concerns job s a = true) (h : Alike job s s') :
    ∃ v', pool.step s' a v' ∧ Follows job v v' := by
  cases move_of_step hst with
  | tick d => exact ⟨_, rfl, congrArg (· + (d : Int)) h.now, h.files, h.workers, h.chunks⟩
  | bulkInsert => exact ⟨_, rfl, h.now, h.files, h.workers, h.chunks⟩
  | @start ws job' settings hfree =>
    obtain rfl : job' = job := of_decide_eq_true hc
    refine ⟨_, if_pos fun w hw => ?_, h.now, h.files, fun w => ?_, h.chunks⟩
    · rw [h.workers, hfree w hw]
      rfl
    · show (if w ∈ ws then _ else _ : Option Worker) =
        (if w ∈ ws then _ else _ : Option Worker).filter _
      split
      · simp [Option.filter]
      · exact h.workers w
  | @leave w k cid hk hl hp he =>
    obtain ⟨hj, hk'⟩ := h.worker hk hc
    have he' : claimed s'.items k.job k.settings.chunkSize s'.now = [] := by
      rw [hj, h.claimed_eq, ← hj, he]
    refine ⟨s'.setLife w k .left, ?_, h.now, h.files, setWorker_filter h.workers (by exact hj) w,
      h.chunks⟩
    show step s' _ = _
    simp only [step, running_iff.mpr ⟨hk', hl⟩, Option.bind_some, hp, claimStep, claimChunk_chunk,
      he', List.map_nil, if_true, claimChunk_empty he']
    rfl
  | @claim w k cid chunk hk hl hp hne hfresh hperm =>
    obtain ⟨hj, hk'⟩ := h.worker hk hc
    have hperm' : chunk.isPerm (claimChunk s'.items s.now k.job w k.settings.chunkSize
        k.settings.leaseTtlSeconds).2 = true := by
      rw [claimChunk_chunk, hj, ← h.now, h.claimed_eq, ← hj]
      exact hperm
    refine ⟨PState.setPhase { s' with
        items := (claimChunk s'.items s.now k.job w k.settings.chunkSize
          k.settings.leaseTtlSeconds).1,
        usedChunks := cid :: s'.usedChunks } w k
          (.processing cid chunk (.sleeping (s.now + makeInterval k.settings.heartbeatSeconds))),
      ?_, h.now, h.files, setWorker_filter h.workers (by exact hj) w,
      List.cons_subset_cons cid h.chunks⟩
    show step s' _ = _
    simp only [step, running_iff.mpr ⟨hk', hl⟩, Option.bind_some, hp, h.now, claimStep,
      hperm', if_true, if_neg hne, if_neg fun hin => hfresh (h.chunks hin)]
  | @renew w k cid chunk wake hk hl hp hw =>
    obtain ⟨hj, hk'⟩ := h.worker hk hc
    refine ⟨PState.setPhase
        { s' with items := renewLease s'.items s'.now w k.settings.leaseTtlSeconds } w k
          (.processing cid chunk (.sleeping (s.now + makeInterval k.settings.heartbeatSeconds))),
      ?_, h.now, h.files, setWorker_filter h.workers (by exact hj) w, h.chunks⟩
    show step s' _ = _
    simp only [step, running_iff.mpr ⟨hk', hl⟩, Option.bind_some, hp, h.now, if_pos hw]
  | @renewFails w k cid chunk wake hk hl hp hw =>
    obtain ⟨hj, hk'⟩ := h.worker hk hc
    refine ⟨s'.setPhase w k (.processing cid chunk .failed), ?_, h.now, h.files,
      setWorker_filter h.workers (by exact hj) w, h.chunks⟩
    show step s' _ = _
    simp only [step, running_iff.mpr ⟨hk', hl⟩, Option.bind_some, hp, h.now, if_pos hw]
  | @processed w k cid chunk wake client latencyMs hk hl hp =>
    obtain ⟨hj, hk'⟩ := h.worker hk hc
    refine ⟨s'.setPhase w k (.writing cid chunk (processChunk k.settings chunk client latencyMs)),
      ?_, h.now, h.files, setWorker_filter h.workers (by exact hj) w, h.chunks⟩
    show step s' _ = _
    simp only [step, running_iff.mpr ⟨hk', hl⟩, Option.bind_some, hp]
  | @dropped w k cid chunk client latencyMs hk hl hp =>
    obtain ⟨hj, hk'⟩ := h.worker hk hc
    refine ⟨s'.setLife w k (.raised s.now), ?_, h.now, h.files,
      setWorker_filter h.workers (by exact hj) w, h.chunks⟩
    show step s' _ = _
    simp only [step, running_iff.mpr ⟨hk', hl⟩, Option.bind_some, hp, h.now]
  | @writePart w k cid chunk results n torn hk hl hp =>
    obtain ⟨hj, hk'⟩ := h.worker hk hc
    refine ⟨{ s' with files := Storage.writePart s'.files k.job cid results n torn }, ?_, h.now, ?_,
      h.workers, h.chunks⟩
    · show step s' _ = _
      simp only [step, running_iff.mpr ⟨hk', hl⟩, Option.bind_some, hp]
    · show putFile s'.files _ = _
      rw [h.files, putFile_filter (by exact hj)]
      rfl
  | @written w k cid chunk results hk hl hp =>
    obtain ⟨hj, hk'⟩ := h.worker hk hc
    refine ⟨PState.setPhase { s' with files := (writeChunk s'.files k.job cid results).1 } w k
        (.completing cid chunk results (chunkRef k.job cid)),
      ?_, h.now, ?_, setWorker_filter h.workers (by exact hj) w, h.chunks⟩
    · show step s' _ = _
      simp only [step, running_iff.mpr ⟨hk', hl⟩, Option.bind_some, hp]
      rfl
    · show putFile s'.files _ = _
      rw [h.files, putFile_filter (by exact hj)]
      rfl
  | @complete w k cid chunk results ref hk hl hp =>
    obtain ⟨hj, hk'⟩ := h.worker hk hc
    have hcount : (completeItems s'.items w ref results).2 =
        (completeItems s.items w ref results).2 := by
      have ht := (((books_reachable hr).held w k hk).results results (by rw [hp]; rfl)).2
      rw [completeItems_count (noRematch_of_terminal ht),
        completeItems_count (noRematch_of_terminal ht), h.owned_count hr hr' hk hk' hj]
    refine ⟨PState.setPhase { s' with items := (completeItems s'.items w ref results).1 } w k
        .claiming,
      ?_, h.now, h.files, setWorker_filter h.workers (by exact hj) w, h.chunks⟩
    show step s' _ = _
    simp only [step, running_iff.mpr ⟨hk', hl⟩, Option.bind_some, hp, hcount, if_true]
  | @raise w k hk hl =>
    obtain ⟨hj, hk'⟩ := h.worker hk hc
    refine ⟨s'.setLife w k (.raised s.now), ?_, h.now, h.files,
      setWorker_filter h.workers (by exact hj) w, h.chunks⟩
    show step s' _ = _
    simp only [step, running_iff.mpr ⟨hk', hl⟩, Option.map_some, h.now]
  | crash ws =>
    refine ⟨_, rfl, h.now, h.files, fun w => ?_, h.chunks⟩
    show (if w ∈ ws then _ else _) = (if w ∈ ws then _ else _ : Option Worker).filter _
    rw [h.now]
    split
    · rw [h.workers]
      cases hk : s.workers w with
      | none => rfl
      | some k =>
        by_cases hj : k.job = job
        · simp [Option.filter, hj]
          split <;> simp [hj]
        · simp [Option.filter, hj]
          split <;> simp [hj]
    · exact h.workers w

theorem alike_shown (hr : pool.Reachable s) (hr' : pool.Reachable s') (hst : pool.step s a v)
    (hc : concerns job s a = true) (h : Alike job s s') :
    ∃ v', pool.step s' a v' ∧ Alike job v v' := by
  obtain ⟨v', hst', hf⟩ := shown_step hr hr' hst hc h
  refine ⟨v', hst', hf.now, ?_, ?_, hf.files, hf.workers, hf.chunks⟩
  · rw [nextId_move (move_of_step hst'), nextId_move (move_of_step hst), h.nextId]
  · rw [step_rows hr hst, step_rows hr' hst', rowsNew_alike h]
    refine List.rel_append ?_ (List.forall₂_same.mpr fun r _ => .refl job r)
    rw [List.forall₂_map_left_iff, List.forall₂_map_right_iff]
    refine h.rows.imp fun r r' hrr => ?_
    have hk := rowNext_sameKey s a r
    have hk' := rowNext_sameKey s' a r'
    refine ⟨?_, fun hj => ?_⟩
    · exact (sameKey_symm hk).trans (hrr.1.trans hk')
    · rw [hrr.2 (hk.2.1.symm.trans hj), rowNext_shown h hst hc]

theorem pool_unwinds (job : JobId) : pool.Unwinds (concerns job) (Alike job) where
  init s hs := by
    obtain ⟨now, rfl⟩ := hs
    exact ⟨.init now, ⟨now, rfl⟩, rfl, rfl, .nil, rfl, fun _ => rfl, List.Subset.refl _⟩
  hidden := alike_hidden
  shown := alike_shown

/-- **Jobs do not disturb each other.** For every run of any number of workers
on any jobs, and every job: the steps of the run that are not of workers of
other jobs are a run by themselves, with the same chunks and answers, and it
ends with the same rows of the job, the same files of the job, the same clock
and the same workers of the job, and no others. -/
theorem jobs_apart {tr : List (Trans PState Act)} (hr : pool.Run tr s) (job : JobId) :
    ∃ tr' s', pool.Run tr' s' ∧
      tr'.map (·.lbl) = (tr.filter fun t => concerns job t.pre t.lbl).map (·.lbl) ∧
      s'.now = s.now ∧
      (s'.items.rows.filter fun r => r.jobId = job) = (s.items.rows.filter fun r => r.jobId = job) ∧
      s'.files = (s.files.filter fun f => f.jobId = job) ∧
      ∀ w, s'.workers w = (s.workers w).filter fun k => k.job = job := by
  obtain ⟨tr', s', hr', h, hl⟩ := (pool_unwinds job).purge hr
  refine ⟨tr', s', hr', hl, h.now, alike_filter h.rows fun r hp => of_decide_eq_true hp, h.files,
    h.workers⟩

end steps

/-! ## Non-vacuity -/

/-- Two workers on two jobs, of which the second crashes with its chunk. -/
def twoJobsRun : List Act :=
  [.bulkInsert "j" [⟨"a", "hi"⟩] [], .bulkInsert "k" [⟨"a", "ho"⟩] [], .start ["w1"] "j" {},
    .start ["w2"] "k" {}, .claim "w2" chunk2 [⟨2, "a", "ho", 1⟩],
    .claim "w1" chunk1 [⟨1, "a", "hi", 1⟩], .processed "w1" (fun _ _ => .success "ok") (fun _ => 0),
    .written "w1", .crash ["w2"], .complete "w1" 1]

/-- Without the second worker the first job ends in the same way. -/
theorem jobs_apart_crashed : ∃ s tr' s', pool.Reachable s ∧
    s.items.rows.map (·.status) = [.succeeded, .claimed] ∧ pool.Run tr' s' ∧ tr'.length = 8 ∧
      (s'.items.rows.filter fun r => r.jobId = "j").map (·.status) = [.succeeded] ∧
      s'.workers "w2" = none := by
  obtain ⟨⟨tr, s⟩, he, hst, hlen, hj, hw⟩ : ∃ p,
      LTS.exec step (.init 0) twoJobsRun = some p ∧
      p.2.items.rows.map (·.status) = [.succeeded, .claimed] ∧
      (p.1.filter fun t => concerns "j" t.pre t.lbl).length = 8 ∧
      (p.2.items.rows.filter fun r => r.jobId = "j").map (·.status) = [.succeeded] ∧
      (p.2.workers "w2").filter (fun k => k.job = "j") = none :=
    ⟨_, rfl, rfl, rfl, rfl, rfl⟩
  have hr : pool.Run tr s := ⟨_, ⟨0, rfl⟩, LTS.path_of_exec he⟩
  obtain ⟨tr', s', hr', hl, -, hrows, -, hws⟩ := jobs_apart hr "j"
  refine ⟨s, tr', s', hr.reachable, hst, hr', ?_, by rw [hrows]; exact hj, (hws "w2").trans hw⟩
  have := congrArg List.length hl
  simp only [List.length_map] at this
  exact this.trans hlen

end BatchSystem.Engine
