import BatchSystem.Engine.Pool

/-!
# Chunks, results and files

What the workers' variables and the result store say about each other,
whatever happens to the table: a chunk id belongs to one worker, its file to
that worker's job, and a worker that completes has a whole file behind it
(`books_reachable`). A worker completes with one final record per item, so on
the table the pool is a run of the queue (`pool_refines`).
-/
namespace BatchSystem.Engine

open BatchSystem.Core Domain Queue Storage PState

/-- The records that a worker holds. -/
def Phase.results : Phase → Option (List ResultRecord)
  | .claiming | .processing .. => none
  | .writing _ _ results | .completing _ _ results _ => some results

/-- The file that a worker's `write_chunk` leaves. -/
def wholeFile (job : JobId) (chunkId : ChunkId) (results : List ResultRecord) : ChunkFile :=
  { jobId := job, chunkId, text := payload results }

/-- A worker's own variables. -/
structure Held (s : PState) (k : Worker) : Prop where
  used : ∀ cid, k.phase.chunkId = some cid → cid ∈ s.usedChunks
  nonempty : ∀ cid, k.phase.chunkId = some cid → k.phase.chunk ≠ []
  results : ∀ rs, k.phase.results = some rs →
    rs.map (·.externalId) = k.phase.chunk.map (·.externalId) ∧
      ∀ res ∈ rs, res.status.terminal = true
  whole : ∀ cid chunk rs ref, k.phase = .completing cid chunk rs ref →
    ref = chunkRef k.job cid ∧ wholeFile k.job cid rs ∈ s.files

structure Books (s : PState) : Prop where
  held : ∀ w k, s.workers w = some k → Held s k
  chunkOwner : ∀ w w' k k' cid, s.workers w = some k → s.workers w' = some k' →
    k.phase.chunkId = some cid → k'.phase.chunkId = some cid → w = w'
  fileUsed : ∀ f ∈ s.files, f.chunkId ∈ s.usedChunks
  fileIds : (s.files.map ChunkFile.chunkId).Nodup
  /-- The file of a worker's chunk: none yet, or a part of its results. -/
  fileOwner : ∀ f ∈ s.files, ∀ w k, s.workers w = some k → k.phase.chunkId = some f.chunkId →
    f.jobId = k.job ∧ ∃ rs, k.phase.results = some rs ∧ f.text <+: payload rs

/-! ## Steps -/

theorem setWorker_same (s : PState) (w : WorkerId) (k : Worker) :
    (s.setWorker w k).workers w = some k := if_pos rfl

theorem setWorker_ne {s : PState} {w x : WorkerId} (h : x ≠ w) (k : Worker) :
    (s.setWorker w k).workers x = s.workers x := if_neg h

/-- A worker of the new state is the one that moved, or it is as before. -/
theorem of_setWorker {s : PState} {w x : WorkerId} {k k' : Worker}
    (h : (s.setWorker w k).workers x = some k') :
    (x = w ∧ k' = k) ∨ (x ≠ w ∧ s.workers x = some k') := by
  by_cases he : x = w
  · subst he; rw [setWorker_same] at h; exact .inl ⟨rfl, (Option.some.inj h).symm⟩
  · rw [setWorker_ne he] at h; exact .inr ⟨he, h⟩

/-- What the bookkeeping reads of a state. -/
theorem Held.congr {s v : PState} {k : Worker} (h : Held s k) (hu : s.usedChunks ⊆ v.usedChunks)
    (hf : ∀ cid chunk rs ref, k.phase = .completing cid chunk rs ref →
      wholeFile k.job cid rs ∈ s.files → wholeFile k.job cid rs ∈ v.files) : Held v k :=
  ⟨fun cid hc => hu (h.used cid hc), h.nonempty, h.results,
    fun cid chunk rs ref hp => ⟨(h.whole cid chunk rs ref hp).1,
      hf cid chunk rs ref hp (h.whole cid chunk rs ref hp).2⟩⟩

/-- Every worker keeps its phase or returns to `claiming`: nothing to check. -/
theorem Books.keep {s v : PState} (h : Books s) (hf : v.files = s.files)
    (hu : v.usedChunks = s.usedChunks)
    (hw : ∀ x k', v.workers x = some k' → k'.phase = .claiming ∨
      ∃ k, s.workers x = some k ∧ k'.job = k.job ∧ k'.phase.chunkId = k.phase.chunkId ∧
        k'.phase.chunk = k.phase.chunk ∧ (k'.phase.results = k.phase.results ∨
          k.phase.results = none) ∧ Held s k') : Books v := by
  have hid : ∀ x k', v.workers x = some k' → ∀ cid, k'.phase.chunkId = some cid →
      ∃ k, s.workers x = some k ∧ k'.job = k.job ∧ k.phase.chunkId = some cid ∧
        (k'.phase.results = k.phase.results ∨ k.phase.results = none) := by
    intro x k' hx cid hc
    rcases hw x k' hx with hp | ⟨k, hk, hj, hcid, -, hr, -⟩
    · rw [hp] at hc; cases hc
    · exact ⟨k, hk, hj, hcid ▸ hc, hr⟩
  refine ⟨fun x k' hx => ?_, ?_, ?_, ?_, ?_⟩
  · rcases hw x k' hx with hp | ⟨k, -, -, -, -, -, hh⟩
    · refine ⟨fun cid hc => ?_, fun cid hc => ?_, fun rs hr => ?_, fun cid chunk rs ref he => ?_⟩
      · rw [hp] at hc; cases hc
      · rw [hp] at hc; cases hc
      · rw [hp] at hr; cases hr
      · rw [hp] at he; cases he
    · exact hh.congr (hu ▸ List.Subset.refl _) fun _ _ _ _ _ hm => hf ▸ hm
  · intro w w' k k' cid hw₁ hw₂ hc₁ hc₂
    obtain ⟨k₁, hk₁, -, hd₁, -⟩ := hid w k hw₁ cid hc₁
    obtain ⟨k₂, hk₂, -, hd₂, -⟩ := hid w' k' hw₂ cid hc₂
    exact h.chunkOwner w w' k₁ k₂ cid hk₁ hk₂ hd₁ hd₂
  · intro f hm; rw [hu]; exact h.fileUsed f (hf ▸ hm)
  · rw [hf]; exact h.fileIds
  · intro f hm w k' hk' hc
    obtain ⟨k, hk, hj, hc', hr⟩ := hid w k' hk' _ hc
    obtain ⟨h1, rs, h2, h3⟩ := h.fileOwner f (hf ▸ hm) w k hk hc'
    refine ⟨h1.trans hj.symm, rs, ?_, h3⟩
    rcases hr with hr | hr
    · rw [hr, h2]
    · rw [hr] at h2; cases h2

theorem Books.init {s : PState} (h : ∃ now, s = .init now) : Books s := by
  obtain ⟨now, rfl⟩ := h
  refine ⟨fun _ _ h => ?_, fun _ _ _ _ _ h => ?_, fun _ h => ?_, .nil, fun _ h => ?_⟩ <;> cases h

/-- A worker writes the file of its own chunk, whole or in part. -/
theorem Books.put {s : PState} (h : Books s) {w : WorkerId} {k : Worker} {cid : ChunkId}
    {chunk : List ClaimedItem} {rs : List ResultRecord} (hk : s.workers w = some k)
    (hp : k.phase = .writing cid chunk rs) {f : ChunkFile} (hfj : f.jobId = k.job)
    (hfc : f.chunkId = cid) (hft : f.text <+: payload rs) :
    Books { s with files := putFile s.files f } := by
  have hcid : k.phase.chunkId = some cid := by rw [hp]; rfl
  have hown : ∀ g ∈ s.files, g.chunkId = f.chunkId → g.jobId = f.jobId := by
    intro g hg he
    rw [hfj]
    exact (h.fileOwner g hg w k hk (by rw [hcid, he, hfc])).1
  refine ⟨fun x k' hx => ?_, h.chunkOwner, fun g hg => ?_, putFile_nodup h.fileIds hown, ?_⟩
  · refine (h.held x k' hx).congr (List.Subset.refl _) fun cid' chunk' rs' ref' hp' hm => ?_
    refine putFile_other hm fun he => ?_
    -- another worker's whole file has another chunk id
    have hc' : k'.phase.chunkId = some cid := by
      rw [hp', ← hfc, ← he.2]; rfl
    obtain rfl := h.chunkOwner x w k' k cid hx hk hc' hcid
    obtain rfl := Option.some.inj (hx.symm.trans hk)
    rw [hp] at hp'; cases hp'
  · rcases mem_putFile hg with rfl | ⟨hg, -⟩
    · rw [hfc]; exact (h.held w k hk).used cid hcid
    · exact h.fileUsed g hg
  · intro g hg x k' hx hc
    rcases mem_putFile hg with rfl | ⟨hg, -⟩
    · rw [hfc] at hc
      obtain rfl := h.chunkOwner x w k' k cid hx hk hc hcid
      obtain rfl := Option.some.inj (hx.symm.trans hk)
      exact ⟨hfj, rs, by rw [hp]; rfl, hft⟩
    · exact h.fileOwner g hg x k' hx hc

/-- A new chunk with a fresh id. -/
theorem Books.newChunk {s : PState} (h : Books s) {w : WorkerId} {k : Worker} {cid : ChunkId}
    {chunk : List ClaimedItem} {hb : Heartbeat} (hne : chunk ≠ []) (hfresh : cid ∉ s.usedChunks)
    (items : PromptItems) : Books ({ s with items, usedChunks := cid :: s.usedChunks }.setPhase w k
      (.processing cid chunk hb)) := by
  have hnew : ∀ x k', s.workers x = some k' → k'.phase.chunkId ≠ some cid :=
    fun x k' hx hc => hfresh ((h.held x k' hx).used cid hc)
  refine ⟨fun x k' hx => ?_, ?_, fun f hf => List.mem_cons_of_mem _ (h.fileUsed f hf), h.fileIds, ?_⟩
  · rcases of_setWorker hx with ⟨rfl, rfl⟩ | ⟨-, hx⟩
    · refine ⟨fun c hc => ?_, fun _ _ => hne, (fun rs hr => nomatch hr),
        (fun _ _ _ _ hp => nomatch hp)⟩
      cases hc; exact List.mem_cons_self
    · exact (h.held x k' hx).congr (List.subset_cons_self _ _) fun _ _ _ _ _ hm => hm
  · intro x y k₁ k₂ c hx hy h₁ h₂
    rcases of_setWorker hx with ⟨rfl, rfl⟩ | ⟨-, hx'⟩ <;>
      rcases of_setWorker hy with ⟨rfl, rfl⟩ | ⟨-, hy'⟩
    · rfl
    · cases h₁; exact absurd h₂ (hnew y k₂ hy')
    · cases h₂; exact absurd h₁ (hnew x k₁ hx')
    · exact h.chunkOwner x y k₁ k₂ c hx' hy' h₁ h₂
  · intro f hf x k' hx hc
    rcases of_setWorker hx with ⟨rfl, rfl⟩ | ⟨-, hx⟩
    · cases hc; exact absurd (h.fileUsed f hf) hfresh
    · exact h.fileOwner f hf x k' hx hc

/-- One worker moves on with the same chunk, and the files stay. -/
theorem Books.setWorker {s : PState} (h : Books s) {w : WorkerId} {k : Worker}
    (hk : s.workers w = some k) (k' : Worker) (hj : k'.job = k.job)
    (hc : k'.phase.chunkId = k.phase.chunkId)
    (hch : k'.phase.chunk = k.phase.chunk) (hr : k'.phase.results = k.phase.results ∨
      k.phase.results = none) (hh : Held s k') (items : PromptItems) :
    Books ({ s with items }.setWorker w k') := by
  refine h.keep rfl rfl fun x y hx => ?_
  rcases of_setWorker hx with ⟨rfl, rfl⟩ | ⟨-, hx⟩
  · exact .inr ⟨k, hk, hj, hc, hch, hr, hh⟩
  · exact .inr ⟨y, hx, rfl, rfl, rfl, .inl rfl, h.held x y hx⟩

theorem Books.setLife {s : PState} (h : Books s) {w : WorkerId} {k : Worker}
    (hk : s.workers w = some k) (life : Life) : Books (s.setLife w k life) := by
  have hh := h.held w k hk
  exact h.setWorker hk { k with life } rfl rfl rfl (.inl rfl)
    ⟨hh.used, hh.nonempty, hh.results, hh.whole⟩ s.items

theorem Books.setPhase {s : PState} (h : Books s) {w : WorkerId} {k : Worker} {phase : Phase}
    (hk : s.workers w = some k) (hc : phase.chunkId = k.phase.chunkId)
    (hch : phase.chunk = k.phase.chunk)
    (hr : phase.results = k.phase.results ∨ k.phase.results = none ∧ ∀ rs,
      phase.results = some rs → rs.map (·.externalId) = phase.chunk.map (·.externalId) ∧
        ∀ res ∈ rs, res.status.terminal = true)
    (hw : ∀ cid chunk rs ref, phase = .completing cid chunk rs ref →
      ref = chunkRef k.job cid ∧ wholeFile k.job cid rs ∈ s.files) (items : PromptItems) :
    Books ({ s with items }.setPhase w k phase) := by
  have hh := h.held w k hk
  refine h.setWorker hk { k with phase } rfl hc hch (hr.imp_right And.left)
    ⟨fun c he => hh.used c (hc ▸ he), fun c he => ?_, fun rs he => ?_, hw⟩ items
  · show phase.chunk ≠ []
    rw [hch]; exact hh.nonempty c (hc ▸ he)
  · show rs.map _ = phase.chunk.map _ ∧ _
    rcases hr with hr | hr
    · rw [hch]; exact hh.results rs (hr ▸ he)
    · exact hr.2 rs he

theorem books_move {s v : PState} {l : Act} (h : Books s) (hm : Move s l v) : Books v := by
  cases hm with
  | tick | bulkInsert =>
    exact h.keep rfl rfl fun x k' hx => .inr ⟨k', hx, rfl, rfl, rfl, .inl rfl, h.held x k' hx⟩
  | start hfree =>
    refine h.keep rfl rfl fun x k' hx => ?_
    simp only at hx
    split at hx
    · cases hx; exact .inl rfl
    · exact .inr ⟨k', hx, rfl, rfl, rfl, .inl rfl, h.held x k' hx⟩
  | leave hk => exact h.setLife hk _
  | claim hk hl hp hne hfresh => exact h.newChunk hne hfresh _
  | renew hk hl hp hw | renewFails hk hl hp hw =>
    refine h.setPhase hk (by rw [hp]; rfl) (by rw [hp]; rfl) (.inl (by rw [hp]; rfl)) ?_ _
    intro _ _ _ _ hq; cases hq
  | processed hk hl hp =>
    refine h.setPhase hk (by rw [hp]; rfl) (by rw [hp]; rfl) (.inr ⟨by rw [hp]; rfl, ?_⟩) ?_ s.items
    · intro rs hr
      cases hr; exact ⟨processChunk_ids _ _ _ _, processChunk_terminal _ _ _ _⟩
    · intro _ _ _ _ hq; cases hq
  | dropped hk => exact h.setLife hk _
  | writePart n torn hk hl hp => exact h.put hk hp rfl rfl (List.take_prefix _ _)
  | @written w k cid chunk rs hk hl hp =>
    have hb : Books { s with files := (writeChunk s.files k.job cid rs).1 } :=
      h.put hk hp rfl rfl (List.prefix_refl _)
    refine hb.setPhase hk (by rw [hp]; rfl) (by rw [hp]; rfl) (.inl (by rw [hp]; rfl))
      (fun c ch r ref hq => ?_) s.items
    cases hq; exact ⟨rfl, putFile_self⟩
  | complete hk hl hp =>
    refine h.keep rfl rfl fun x k' hx => ?_
    rcases of_setWorker hx with ⟨rfl, rfl⟩ | ⟨-, hx⟩
    · exact .inl rfl
    · exact .inr ⟨k', hx, rfl, rfl, rfl, .inl rfl, h.held x k' hx⟩
  | raise hk => exact h.setLife hk _
  | crash ws =>
    refine h.keep rfl rfl fun x k' hx => ?_
    simp only [stopAll] at hx
    split at hx
    · obtain ⟨k, hk, rfl⟩ := Option.map_eq_some_iff.mp hx
      have hh := h.held x k hk
      split
      · exact .inr ⟨k, hk, rfl, rfl, rfl, .inl rfl, ⟨hh.used, hh.nonempty, hh.results, hh.whole⟩⟩
      · exact .inr ⟨k, hk, rfl, rfl, rfl, .inl rfl, hh⟩
    · exact .inr ⟨k', hx, rfl, rfl, rfl, .inl rfl, h.held x k' hx⟩

theorem books_reachable {s : PState} (h : pool.Reachable s) : Books s :=
  h.induct (I := Books) (fun _ hs => Books.init hs)
    fun _ _ _ _ hi hst => books_move hi (move_of_step hst)

/-! ## The table -/

/-- The transaction that a step runs, if any. -/
def txOf (s : PState) : Act → Option Tx
  | .tick d => some (.tick d)
  | .bulkInsert job items failed =>
    some (.bulkInsert job items failed (bulkInsert s.items job items failed).2)
  | .claim w _ chunk => (s.workers w).map fun k =>
    .claimChunk k.job w k.settings.chunkSize k.settings.leaseTtlSeconds chunk
  | .renew w => (s.workers w).map fun k => .renewLease w k.settings.leaseTtlSeconds
  | .complete w count => (s.workers w).bind fun k => match k.phase with
    | .completing _ _ results ref => some (.completeItems w results ref count)
    | _ => none
  | _ => none

/-- **The pool refines the queue.** -/
theorem pool_refines : pool.Refines Queue.queue PState.queue txOf := by
  refine ⟨?_, fun s l v hr hst => ?_⟩
  · rintro _ ⟨now, rfl⟩; rfl
  · have hb := books_reachable hr
    cases move_of_step hst with
    | tick d => exact rfl
    | bulkInsert job items failed => exact if_pos rfl
    | start | writePart => rfl
    | @leave w k cid hk hl hp he =>
      have hempty : (claimChunk s.items s.now k.job w k.settings.chunkSize
          k.settings.leaseTtlSeconds).2 = [] := by rw [claimChunk_chunk, he]; rfl
      simp only [txOf, hk, Option.map_some, LTS.ofFn, Queue.queue, txStep, PState.queue, hempty]
      rw [if_pos (by decide), claimChunk_empty he]
      rfl
    | claim hk hl hp hne hfresh hperm =>
      simp only [txOf, hk, Option.map_some]
      exact if_pos hperm
    | renew hk => simp only [txOf, hk, Option.map_some]; rfl
    | renewFails | processed | dropped | written | raise | crash => rfl
    | @complete w k cid chunk rs ref hk hl hp =>
      have ht := ((hb.held w k hk).results rs (by rw [hp]; rfl)).2
      simp only [txOf, hk, Option.bind_some, hp]
      exact if_pos ⟨ht, rfl⟩

/-- An existing row after a step of the pool. -/
def rowNext (s : PState) (l : Act) (r : ItemRow) : ItemRow :=
  match txOf s l with
  | none => r
  | some tx => rowAfter s.queue tx r

def rowsNew (s : PState) (l : Act) : List ItemRow :=
  match txOf s l with
  | none => []
  | some tx => rowsAdded s.queue tx

theorem step_rows {s v : PState} {l : Act} (hr : pool.Reachable s) (hst : pool.step s l v) :
    v.items.rows = s.items.rows.map (rowNext s l) ++ rowsNew s l := by
  have h := pool_refines.step s l v hr hst
  unfold rowNext rowsNew
  cases hx : txOf s l with
  | none =>
    simp only [hx] at h
    have : v.items = s.items := congrArg QState.items h
    simp [this]
  | some tx =>
    simp only [hx] at h
    exact txStep_rows h

theorem mem_next {s v : PState} {l : Act} (hr : pool.Reachable s) (hst : pool.step s l v)
    {r : ItemRow} : r ∈ v.items.rows ↔
      (∃ r₀ ∈ s.items.rows, rowNext s l r₀ = r) ∨ r ∈ rowsNew s l := by
  rw [step_rows hr hst, List.mem_append, List.mem_map]

theorem rowNext_mem {s v : PState} {l : Act} (hr : pool.Reachable s) (hst : pool.step s l v)
    {r : ItemRow} (h : r ∈ s.items.rows) : rowNext s l r ∈ v.items.rows :=
  (mem_next hr hst).mpr (.inl ⟨r, h, rfl⟩)

theorem rowNext_claim {s : PState} {w : WorkerId} {k : Worker} (hk : s.workers w = some k)
    (cid : ChunkId) (chunk : List ClaimedItem) (r : ItemRow) :
    rowNext s (.claim w cid chunk) r =
      if r ∈ claimed s.items k.job k.settings.chunkSize s.now then
        claimRow w (s.now + makeInterval k.settings.leaseTtlSeconds) r
      else r := by
  simp only [rowNext, txOf, hk, Option.map_some]; rfl

theorem rowNext_renew {s : PState} {w : WorkerId} {k : Worker} (hk : s.workers w = some k)
    (r : ItemRow) : rowNext s (.renew w) r =
      if ownedBy w r then
        { r with leaseUntil := some (s.now + makeInterval k.settings.leaseTtlSeconds) }
      else r := by
  simp only [rowNext, txOf, hk, Option.map_some]; rfl

theorem rowNext_complete {s : PState} {w : WorkerId} {k : Worker} (hk : s.workers w = some k)
    {cid : ChunkId} {chunk : List ClaimedItem} {results : List ResultRecord} {ref : String}
    (hp : k.phase = .completing cid chunk results ref) (n : Nat) (r : ItemRow) :
    rowNext s (.complete w n) r = completeRow w ref results r := by
  simp only [rowNext, txOf, hk, Option.bind_some, hp]; rfl

theorem rowNext_sameKey (s : PState) (l : Act) (r : ItemRow) : r.SameKey (rowNext s l r) := by
  unfold rowNext
  split
  · exact .refl r
  · exact rowAfter_sameKey _ _ r

theorem txOf_bulkInsert {s : PState} {a : Act} {job : JobId} {items : List PromptItem}
    {failed : List ResultRecord} {n : Nat} (h : txOf s a = some (.bulkInsert job items failed n)) :
    a = .bulkInsert job items failed := by
  cases a with
  | bulkInsert =>
    cases h
    rfl
  | complete w count =>
    obtain ⟨k, -, h⟩ := Option.bind_eq_some_iff.mp h
    split at h <;> cases h
  | _ => simp [txOf] at h

theorem rowsNew_job {s : PState} {a : Act} {r : ItemRow} (h : r ∈ rowsNew s a) :
    ∃ items failed, a = .bulkInsert r.jobId items failed := by
  unfold rowsNew at h
  split at h
  · cases h
  · rename_i tx htx
    cases tx with
    | bulkInsert job items failed n =>
      obtain rfl := (freshRows_unclaimed h).1
      exact ⟨items, failed, txOf_bulkInsert htx⟩
    | _ => cases h

theorem rowsNew_unclaimed {s : PState} {l : Act} {r : ItemRow} (h : r ∈ rowsNew s l) :
    Unclaimed r := by
  unfold rowsNew at h
  split at h
  · cases h
  · exact rowsAdded_unclaimed h

theorem rowNext_terminal (s : PState) (l : Act) {r : ItemRow} (h : r.status.terminal = true) :
    rowNext s l r = r := by
  unfold rowNext
  split
  · rfl
  · exact rowAfter_terminal _ _ h

theorem queue_reachable {s : PState} (h : pool.Reachable s) : Queue.queue.Reachable s.queue :=
  pool_refines.reachable h

end BatchSystem.Engine
