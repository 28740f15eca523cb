import BatchSystem.Engine.Fencing

/-!
# Results are durable before they are committed

A file is `Sealed` when no worker can open it again: its writer is past
`write_chunk`, and chunk ids are never drawn twice. Sealed files stay as they
are (`Sealed.step`, `Sealed.path`). Every row with a `result_ref` points to
a sealed file of its own job that holds its record (`durable_reachable`), and
`complete_items` gives no final status without a `result_ref`.
-/
namespace BatchSystem.Engine

open BatchSystem.Core Domain Queue Storage PState

/-! ## Sealed files -/

/-- A worker that may still open the file of chunk `cid`. -/
def OpenAt (s : PState) (cid : ChunkId) : Prop :=
  ∃ w k, s.workers w = some k ∧ k.phase.open = true ∧ k.phase.chunkId = some cid

structure Sealed (s : PState) (f : ChunkFile) : Prop where
  mem : f ∈ s.files
  closed : ¬ OpenAt s f.chunkId

section step
variable {s v : PState} {l : Act}

/-- A file is opened for a chunk that is open already, or for a new one. -/
theorem open_next (hm : Move s l v) {cid : ChunkId} (h : OpenAt v cid) :
    OpenAt s cid ∨ cid ∉ s.usedChunks := by
  obtain ⟨x, k', hx, ho, hc⟩ := h
  cases turn_of_move hm hx with
  | same hk | leave hk | dropped hk | writePart hk | raise hk | crash hk =>
    exact .inl ⟨x, _, hk, ho, hc⟩
  | claim hk hl hp hne hfresh => cases hc; exact .inr hfresh
  | renew hk hl hp | renewFails hk hl hp | processed hk hl hp =>
    cases hc
    exact .inl ⟨x, _, hk, by rw [hp]; rfl, by rw [hp]; rfl⟩
  | start | written | complete => cases ho

/-- Only an open chunk's file is written. -/
theorem files_next (hm : Move s l v) {f : ChunkFile} (hf : f ∈ s.files) :
    f ∈ v.files ∨ OpenAt s f.chunkId := by
  cases hm with
  | @writePart w k cid chunk rs n torn hk hl hp =>
    by_cases he : f.jobId = k.job ∧ f.chunkId = cid
    · exact .inr ⟨w, k, hk, by rw [hp]; rfl, by rw [hp, he.2]; rfl⟩
    · exact .inl (putFile_other hf he)
  | @written w k cid chunk rs hk hl hp =>
    by_cases he : f.jobId = k.job ∧ f.chunkId = cid
    · exact .inr ⟨w, k, hk, by rw [hp]; rfl, by rw [hp, he.2]; rfl⟩
    · exact .inl (putFile_other hf he)
  | _ => exact .inl hf

theorem Sealed.step (hr : pool.Reachable s) (hst : pool.step s l v) {f : ChunkFile}
    (h : Sealed s f) : Sealed v f := by
  have hm := move_of_step hst
  refine ⟨(files_next hm h.mem).resolve_right h.closed, fun ho => ?_⟩
  rcases open_next hm ho with ho | hfresh
  · exact h.closed ho
  · exact hfresh ((books_reachable hr).fileUsed f h.mem)

end step

theorem Sealed.path {s v : PState} {tr : List (Trans PState Act)} {f : ChunkFile}
    (h : Sealed s f) (hr : pool.Reachable s) (hp : pool.Path s tr v) : Sealed v f :=
  hp.preserve (I := fun s => Sealed s f) (fun _ _ _ hr hi hst => hi.step hr hst) hr h

/-! ## Rows with a result -/

/-- The record says of the row what the row says. -/
structure Agrees (res : ResultRecord) (r : ItemRow) : Prop where
  externalId : res.externalId = r.externalId
  status : res.status = r.status
  error : res.error = r.error
  attempts : res.attempts = r.attempts

/-- The row's result is record `res` of the chunk object `f` with records `rs`. -/
structure StoredIn (r : ItemRow) (f : ChunkFile) (rs : List ResultRecord) (res : ResultRecord) :
    Prop where
  ref : r.resultRef = some (chunkRef r.jobId f.chunkId)
  whole : f = wholeFile r.jobId f.chunkId rs
  mem : res ∈ rs
  agrees : Agrees res r

/-- A row with a result is finished, and its result is in a sealed file. -/
def Durable (s : PState) : Prop :=
  ∀ r ∈ s.items.rows, r.resultRef ≠ none →
    r.status.terminal = true ∧ ∃ f rs res, Sealed s f ∧ StoredIn r f rs res

theorem durable_step {s v : PState} {l : Act} (hr : pool.Reachable s) (h : Durable s)
    (hst : pool.step s l v) : Durable v := by
  intro r' hr' hne
  rcases (mem_next hr hst).mp hr' with ⟨r, hrow, rfl⟩ | hnew
  swap
  · exact absurd (rowsNew_unclaimed hnew).resultRef hne
  rcases rowNext_cases s l r with ⟨-, href⟩ |
    ⟨w, n, k, cid, chunk, results, ref, res, rfl, hk, hp, ho, hres, hfin⟩
  · -- the row had its result before, and is not touched again
    obtain ⟨ht, f, rs, res, hs, hst'⟩ := h r hrow (href ▸ hne)
    rw [rowNext_terminal s l ht]
    exact ⟨ht, f, rs, res, hs.step hr hst, hst'⟩
  · -- the worker has written its chunk before it completes
    have hb := books_reachable hr
    obtain ⟨hrs, hterm⟩ := (hb.held w k hk).results results (by rw [hp]; rfl)
    obtain ⟨rfl, hwhole⟩ := (hb.held w k hk).whole cid chunk results ref hp
    obtain ⟨hmem, hext⟩ := mem_recordFor hres
    have hj := (owned_item hr hk hrow ho).1
    have hsealed : Sealed s (wholeFile k.job cid results) := by
      refine ⟨hwhole, ?_⟩
      rintro ⟨x, k', hx, hop, hc⟩
      obtain rfl := hb.chunkOwner x w k' k cid hx hk hc (by rw [hp]; rfl)
      obtain rfl := Option.some.inj (hx.symm.trans hk)
      rw [hp] at hop; cases hop
    rw [hfin]
    refine ⟨hterm res hmem, wholeFile k.job cid results, results, res, hsealed.step hr hst, ?_⟩
    exact ⟨by rw [hj]; rfl, by rw [hj]; rfl, hmem, hext, rfl, rfl, rfl⟩

theorem durable_reachable {s : PState} (h : pool.Reachable s) : Durable s := by
  refine h.induct (I := Durable) ?_ fun s l v hr hi hst => durable_step hr hi hst
  rintro _ ⟨now, rfl⟩ r hr
  cases hr

/-- A row that moved has a result. -/
theorem moved_result {tr : List (Trans PState Act)} {s : PState} (h : pool.Run tr s) :
    ∀ r ∈ s.items.rows, tr.any (fun t => moves t r.id) = true → r.resultRef ≠ none := by
  refine h.induct (P := fun tr s => ∀ r ∈ s.items.rows,
    tr.any (fun t => moves t r.id) = true → r.resultRef ≠ none) ?_ ?_
  · intro s _ r _ hm; cases hm
  · intro tr s l v hr ih hst r' hr' hm
    rcases (mem_next hr.reachable hst).mp hr' with ⟨r, hrow, rfl⟩ | hnew
    swap
    · rw [not_moved_new hr hst hnew] at hm; cases hm
    rw [(rowNext_sameKey s l r).1, List.any_append, Bool.or_eq_true] at hm
    rcases rowNext_cases s l r with ⟨hterm, href⟩ | ⟨_, _, _, _, _, _, _, _, _, _, _, _, _, hfin⟩
    · rcases hm with hm | hm
      · rw [href]; exact ih r hrow hm
      · rw [List.any_cons, List.any_nil, Bool.or_false, moves_iff hr.reachable hst hrow,
          hterm] at hm
        rw [hm.1] at hm; cases hm.2
    · rw [hfin]; exact nofun

/-! ## Headline -/

/-- **Results are durable before they are committed**, in every run of the
pool: a row that `complete_items` finished points to a chunk object of its own
job, written whole, with a record that agrees with the row, and every later
state has that object and no other under its chunk id. -/
theorem results_durable {tr : List (Trans PState Act)} {s : PState} (hr : pool.Run tr s) :
    ∀ r ∈ s.items.rows, tr.any (fun t => moves t r.id) = true →
      ∃ f rs res, f ∈ s.files ∧ StoredIn r f rs res ∧
        ∀ tr' v, pool.Path s tr' v → f ∈ v.files ∧ ∀ g ∈ v.files, g.chunkId = f.chunkId → g = f := by
  intro r hrow hm
  have hreach := hr.reachable
  obtain ⟨-, f, rs, res, hs, hstored⟩ := durable_reachable hreach r hrow (moved_result hr r hrow hm)
  refine ⟨f, rs, res, hs.mem, hstored, fun tr' v hp => ?_⟩
  have hv := (hs.path hreach hp).mem
  exact ⟨hv, fun g hg he =>
    List.inj_on_of_nodup_map (books_reachable (hreach.path hp)).fileIds hg hv he⟩

/-! ## Non-vacuity -/

/-- After the completion of `w2` in `staleRun` the row points to the file of `w2`. -/
theorem results_durable_reclaim : ∃ tr s, pool.Run tr s ∧
    ∃ r ∈ s.items.rows, r.status = .succeeded ∧ ∃ f rs res, f ∈ s.files ∧ StoredIn r f rs res ∧
      ∀ tr' v, pool.Path s tr' v → f ∈ v.files ∧ ∀ g ∈ v.files, g.chunkId = f.chunkId → g = f := by
  obtain ⟨⟨tr, s⟩, he, hs⟩ : ∃ p, LTS.exec step (.init 0) (staleRun ++ [.complete "w2" 1]) = some p ∧
      p.2.items.rows.any (fun r => r.status = .succeeded ∧
        p.1.any (fun t => moves t r.id) = true) = true :=
    ⟨_, rfl, by decide⟩
  have hr : pool.Run tr s := ⟨_, ⟨0, rfl⟩, LTS.path_of_exec he⟩
  obtain ⟨r, hrow, hp⟩ := List.any_eq_true.mp hs
  obtain ⟨hst, hm⟩ := of_decide_eq_true hp
  exact ⟨tr, s, hr, r, hrow, hst, results_durable hr r hrow hm⟩

end BatchSystem.Engine
