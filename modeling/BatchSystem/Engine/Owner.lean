import BatchSystem.Engine.Books

/-!
# Rows and their owners

The invariant behind fencing (`owners_reachable`): a CLAIMED row is an item of
the chunk that its owner holds, whether that worker still runs or stopped, and
every item of a held chunk stands for a row of the worker's job. So what a
worker completes is its own chunk (`owned_item`), although `complete_items`
names neither the job nor the row.

`turn_of_move` says once what a step does to one worker; `worker_next` reads off
it what becomes of the chunk, `results_next` of the records, `life_next` of the
life. `owner_next` says how a row comes to be CLAIMED by a worker.
-/
namespace BatchSystem.Engine

open BatchSystem.Core Domain Queue Storage PState

/-! ## One worker, one row -/

/-- The worker that makes the step. -/
def Act.mover : Act → Option WorkerId
  | .claim w _ _ | .renew w | .renewFails w | .processed w _ _ | .writePart w _ _ | .written w
  | .complete w _ | .raise w => some w
  | _ => none

/-- What a step makes of one worker. -/
inductive Turn (s : PState) (x : WorkerId) : Act → Worker → Prop
  | same {l : Act} {k : Worker} (hk : s.workers x = some k) (hl : l.mover ≠ some x) : Turn s x l k
  | start {ws : List WorkerId} {job : JobId} {settings : Settings} (hn : s.workers x = none)
      (hmem : x ∈ ws) : Turn s x (.start ws job settings) { job, settings }
  | leave {k : Worker} {cid : ChunkId} (hk : s.workers x = some k) (hl : k.life = .running)
      (hp : k.phase = .claiming)
      (he : claimed s.items k.job k.settings.chunkSize s.now = []) :
      Turn s x (.claim x cid []) { k with life := .left }
  | claim {k : Worker} {cid : ChunkId} {chunk : List ClaimedItem} (hk : s.workers x = some k)
      (hl : k.life = .running) (hp : k.phase = .claiming) (hne : chunk ≠ [])
      (hfresh : cid ∉ s.usedChunks)
      (hperm : chunk.isPerm (claimChunk s.items s.now k.job x k.settings.chunkSize
        k.settings.leaseTtlSeconds).2 = true) :
      Turn s x (.claim x cid chunk) { k with
        phase := .processing cid chunk
          (.sleeping (s.now + makeInterval k.settings.heartbeatSeconds)) }
  | renew {k : Worker} {cid : ChunkId} {chunk : List ClaimedItem} {wake : Int}
      (hk : s.workers x = some k) (hl : k.life = .running)
      (hp : k.phase = .processing cid chunk (.sleeping wake)) :
      Turn s x (.renew x) { k with
        phase := .processing cid chunk
          (.sleeping (s.now + makeInterval k.settings.heartbeatSeconds)) }
  | renewFails {k : Worker} {cid : ChunkId} {chunk : List ClaimedItem} {wake : Int}
      (hk : s.workers x = some k) (hl : k.life = .running)
      (hp : k.phase = .processing cid chunk (.sleeping wake)) :
      Turn s x (.renewFails x) { k with phase := .processing cid chunk .failed }
  | processed {k : Worker} {cid : ChunkId} {chunk : List ClaimedItem} {wake : Int}
      {client : Nat → Nat → Outcome} {latencyMs : Nat → Int} (hk : s.workers x = some k)
      (hl : k.life = .running) (hp : k.phase = .processing cid chunk (.sleeping wake)) :
      Turn s x (.processed x client latencyMs)
        { k with phase := .writing cid chunk (processChunk k.settings chunk client latencyMs) }
  | dropped {k : Worker} {cid : ChunkId} {chunk : List ClaimedItem}
      {client : Nat → Nat → Outcome} {latencyMs : Nat → Int} (hk : s.workers x = some k)
      (hl : k.life = .running) (hp : k.phase = .processing cid chunk .failed) :
      Turn s x (.processed x client latencyMs) { k with life := .raised s.now }
  | writePart {k : Worker} {cid : ChunkId} {chunk : List ClaimedItem}
      {results : List ResultRecord} {n : Nat} {torn : Bool} (hk : s.workers x = some k)
      (hl : k.life = .running) (hp : k.phase = .writing cid chunk results) :
      Turn s x (.writePart x n torn) k
  | written {k : Worker} {cid : ChunkId} {chunk : List ClaimedItem} {results : List ResultRecord}
      (hk : s.workers x = some k) (hl : k.life = .running)
      (hp : k.phase = .writing cid chunk results) :
      Turn s x (.written x) { k with phase := .completing cid chunk results (chunkRef k.job cid) }
  | complete {k : Worker} {cid : ChunkId} {chunk : List ClaimedItem} {results : List ResultRecord}
      {ref : String} {n : Nat} (hk : s.workers x = some k) (hl : k.life = .running)
      (hp : k.phase = .completing cid chunk results ref) :
      Turn s x (.complete x n) { k with phase := .claiming }
  | raise {k : Worker} (hk : s.workers x = some k) (hl : k.life = .running) :
      Turn s x (.raise x) { k with life := .raised s.now }
  | crash {k : Worker} {ws : List WorkerId} (hk : s.workers x = some k) (hl : k.life = .running)
      (hmem : x ∈ ws) : Turn s x (.crash ws) { k with life := .crashed s.now }

theorem turn_of_move {s v : PState} {l : Act} (hm : Move s l v) {x : WorkerId} {k' : Worker}
    (hx : v.workers x = some k') : Turn s x l k' := by
  -- another worker moves
  have other : ∀ {w : WorkerId}, l.mover = some w → x ≠ w → l.mover ≠ some x := by
    intro w hw hne h
    exact hne (Option.some.inj (h.symm.trans hw))
  cases hm with
  | tick | bulkInsert => exact .same hx (by simp [Act.mover])
  | start hfree =>
    simp only at hx
    split at hx
    · rename_i hmem
      cases hx
      exact .start (hfree x hmem) hmem
    · exact .same hx (by simp [Act.mover])
  | leave hk hl hp he =>
    rcases of_setWorker hx with ⟨rfl, rfl⟩ | ⟨hne, hx⟩
    · exact .leave hk hl hp he
    · exact .same hx (other rfl hne)
  | claim hk hl hp hne hfresh hperm =>
    rcases of_setWorker hx with ⟨rfl, rfl⟩ | ⟨hx', hx⟩
    · exact .claim hk hl hp hne hfresh hperm
    · exact .same hx (other rfl hx')
  | renew hk hl hp =>
    rcases of_setWorker hx with ⟨rfl, rfl⟩ | ⟨hne, hx⟩
    · exact .renew hk hl hp
    · exact .same hx (other rfl hne)
  | renewFails hk hl hp =>
    rcases of_setWorker hx with ⟨rfl, rfl⟩ | ⟨hne, hx⟩
    · exact .renewFails hk hl hp
    · exact .same hx (other rfl hne)
  | processed hk hl hp =>
    rcases of_setWorker hx with ⟨rfl, rfl⟩ | ⟨hne, hx⟩
    · exact .processed hk hl hp
    · exact .same hx (other rfl hne)
  | dropped hk hl hp =>
    rcases of_setWorker hx with ⟨rfl, rfl⟩ | ⟨hne, hx⟩
    · exact .dropped hk hl hp
    · exact .same hx (other rfl hne)
  | @writePart w k cid chunk results n torn hk hl hp =>
    by_cases hne : x = w
    · subst hne
      obtain rfl := Option.some.inj (hk.symm.trans hx)
      exact .writePart hk hl hp
    · exact .same hx (other rfl hne)
  | written hk hl hp =>
    rcases of_setWorker hx with ⟨rfl, rfl⟩ | ⟨hne, hx⟩
    · exact .written hk hl hp
    · exact .same hx (other rfl hne)
  | complete hk hl hp =>
    rcases of_setWorker hx with ⟨rfl, rfl⟩ | ⟨hne, hx⟩
    · exact .complete hk hl hp
    · exact .same hx (other rfl hne)
  | raise hk hl =>
    rcases of_setWorker hx with ⟨rfl, rfl⟩ | ⟨hne, hx⟩
    · exact .raise hk hl
    · exact .same hx (other rfl hne)
  | crash ws =>
    simp only [stopAll] at hx
    split at hx
    · rename_i hmem
      obtain ⟨k, hk, rfl⟩ := Option.map_eq_some_iff.mp hx
      split
      · rename_i hl
        exact .crash hk hl hmem
      · exact .same hk (by simp [Act.mover])
    · exact .same hx (by simp [Act.mover])

/-- A step starts a worker, lets it keep its chunk, or takes it into a chunk by
a claim and out of it by a completion. -/
theorem worker_next {s v : PState} {l : Act} (hm : Move s l v) {x : WorkerId} {k' : Worker}
    (hx : v.workers x = some k') :
    (s.workers x = none ∧ k'.phase = .claiming ∧ k'.life = .running) ∨
    ∃ k, s.workers x = some k ∧ k'.job = k.job ∧ k'.settings = k.settings ∧
      ((k'.phase.chunk = k.phase.chunk ∧ k'.phase.chunkId = k.phase.chunkId) ∨
        (∃ cid chunk hb, l = .claim x cid chunk ∧ k.phase = .claiming ∧
          k'.phase = .processing cid chunk hb) ∨
        (∃ n, l = .complete x n ∧ k'.phase = .claiming)) := by
  cases turn_of_move hm hx with
  | start hn => exact .inl ⟨hn, rfl, rfl⟩
  | same hk | leave hk | dropped hk | writePart hk | raise hk | crash hk =>
    exact .inr ⟨_, hk, rfl, rfl, .inl ⟨rfl, rfl⟩⟩
  | claim hk hl hp => exact .inr ⟨_, hk, rfl, rfl, .inr (.inl ⟨_, _, _, rfl, hp, rfl⟩)⟩
  | renew hk hl hp | renewFails hk hl hp | processed hk hl hp | written hk hl hp =>
    exact .inr ⟨_, hk, rfl, rfl, .inl (by rw [hp]; exact ⟨rfl, rfl⟩)⟩
  | complete hk => exact .inr ⟨_, hk, rfl, rfl, .inr (.inr ⟨_, rfl, rfl⟩)⟩

/-- The records that a worker holds are those it held, or those it has just
computed. -/
theorem results_next {s v : PState} {l : Act} (hm : Move s l v) {x : WorkerId} {k' : Worker}
    (hx : v.workers x = some k') {rs : List ResultRecord} (hrs : k'.phase.results = some rs) :
    (∃ k, s.workers x = some k ∧ k.phase.results = some rs ∧ k'.job = k.job ∧
      k'.phase.chunk = k.phase.chunk ∧ k'.phase.chunkId = k.phase.chunkId) ∨
    ∃ k cid chunk wake client latencyMs, l = .processed x client latencyMs ∧
      s.workers x = some k ∧ k.phase = .processing cid chunk (.sleeping wake) ∧
      k' = { k with phase := .writing cid chunk (processChunk k.settings chunk client latencyMs) } := by
  cases turn_of_move hm hx with
  | same hk | leave hk | dropped hk | writePart hk | raise hk | crash hk =>
    exact .inl ⟨_, hk, hrs, rfl, rfl, rfl⟩
  | start | claim | renew | renewFails | complete => cases hrs
  | processed hk hl hp => exact .inr ⟨_, _, _, _, _, _, rfl, hk, hp, rfl⟩
  | written hk hl hp =>
    refine .inl ⟨_, hk, ?_, rfl, ?_, ?_⟩
    · rw [hp]
      exact hrs
    · rw [hp]
      rfl
    · rw [hp]
      rfl

/-- What a step makes of one worker's life. -/
inductive LifeNext (s : PState) (l : Act) (x : WorkerId) (k' : Worker) : Prop
  | new (hn : s.workers x = none) (hp : k'.phase = .claiming) (hl : k'.life = .running)
  | same (hk : s.workers x = some k')
  | moved {k : Worker} (hk : s.workers x = some k) (hs : k'.settings = k.settings)
      (hl : k.life = .running) (hl' : k'.life = .running)
  | left {k : Worker} {cid : ChunkId} (hk : s.workers x = some k) (hl : k.life = .running)
      (ha : l = .claim x cid []) (hp : k.phase = .claiming)
      (he : claimed s.items k.job k.settings.chunkSize s.now = [])
      (hk' : k' = { k with life := .left })
  | stopped {k : Worker} (hk : s.workers x = some k) (hl : k.life = .running)
      (hl' : k'.life = .raised s.now ∨ k'.life = .crashed s.now)
      (hk' : k' = { k with life := k'.life })

/-- Only a running worker moves. -/
theorem life_next {s v : PState} {l : Act} (hm : Move s l v) {x : WorkerId} {k' : Worker}
    (hx : v.workers x = some k') : LifeNext s l x k' := by
  cases turn_of_move hm hx with
  | start hn => exact .new hn rfl rfl
  | same hk | writePart hk => exact .same hk
  | leave hk hl hp he => exact .left hk hl rfl hp he rfl
  | dropped hk hl | raise hk hl => exact .stopped hk hl (.inl rfl) rfl
  | claim hk hl | renew hk hl | renewFails hk hl | processed hk hl | written hk hl
  | complete hk hl => exact .moved hk rfl hl hl
  | crash hk hl => exact .stopped hk hl (.inr rfl) rfl

/-- No worker is forgotten. -/
theorem worker_persists {s v : PState} {l : Act} (hm : Move s l v) {x : WorkerId} {k : Worker}
    (hx : s.workers x = some k) : ∃ k', v.workers x = some k' := by
  have hset : ∀ (u : PState) (w : WorkerId) (k₀ : Worker), u.workers = s.workers →
      ∃ k', (u.setWorker w k₀).workers x = some k' := by
    intro u w k₀ hu
    by_cases he : x = w
    · subst he; exact ⟨k₀, setWorker_same _ _ _⟩
    · exact ⟨k, by rw [setWorker_ne he, hu, hx]⟩
  cases hm with
  | tick | bulkInsert | writePart => exact ⟨k, hx⟩
  | start hfree =>
    refine ⟨k, ?_⟩
    simp only
    split
    · rename_i hmem; rw [hfree x hmem] at hx; cases hx
    · exact hx
  | crash ws =>
    simp only [stopAll, hx]
    split
    · exact ⟨_, rfl⟩
    · exact ⟨k, rfl⟩
  | leave | claim | renew | renewFails | processed | dropped | written | complete | raise =>
    exact hset _ _ _ rfl

/-- The workers that were started in a run. -/
def started (tr : List (Trans PState Act)) : List WorkerId :=
  tr.flatMap fun t => match t.lbl with
    | .start ws _ _ => ws
    | _ => []

theorem started_step {s v : PState} {l : Act} (hm : Move s l v) {x : WorkerId} {k' : Worker}
    (hx : v.workers x = some k') :
    (∃ k, s.workers x = some k) ∨ ∃ ws job settings, l = .start ws job settings ∧ x ∈ ws := by
  cases turn_of_move hm hx with
  | start _ hmem => exact .inr ⟨_, _, _, rfl, hmem⟩
  | same hk | leave hk | claim hk | renew hk | renewFails hk | processed hk | dropped hk
  | writePart hk | written hk | complete hk | raise hk | crash hk => exact .inl ⟨_, hk⟩

theorem started_run {tr : List (Trans PState Act)} {s : PState} (h : pool.Run tr s) :
    ∀ w k, s.workers w = some k → w ∈ started tr := by
  refine h.induct (P := fun tr s => ∀ w k, s.workers w = some k → w ∈ started tr) ?_ ?_
  · rintro _ ⟨now, rfl⟩ w k hk; cases hk
  · intro tr s l v _ ih hst w k hk
    rw [started, List.flatMap_append, List.mem_append, ← started]
    rcases started_step (move_of_step hst) hk with ⟨k₀, hk₀⟩ | ⟨ws, job, settings, rfl, hw⟩
    · exact .inl (ih w k₀ hk₀)
    · exact .inr (by simpa using hw)

/-- A run meets a condition on its steps if they meet it among the workers
that it starts. -/
theorem restrict_of_started {C : PState → Act → Prop} {tr : List (Trans PState Act)} {s : PState}
    (h : pool.Run tr s) (hc : ∀ t ∈ tr, (∀ w k, t.pre.workers w = some k → w ∈ started tr) →
      C t.pre t.lbl) : (pool.restrict C).Run tr s := by
  obtain ⟨s₀, h₀, hp⟩ := h
  refine ⟨s₀, h₀, hp.restrict fun t ht => hc t ht fun w k hk => ?_⟩
  obtain ⟨tr₁, tr₂, rfl⟩ := List.append_of_mem ht
  have hw := started_run ⟨s₀, h₀, (hp.split rfl).1⟩ w k hk
  rw [started, List.flatMap_append]
  exact List.mem_append_left _ hw

/-- How a row is CLAIMED by a worker after a transaction: it was, and no
record was applied to it, or the worker's claim took it. -/
theorem rowAfter_claimed {s v : QState} {tx : Tx} (hst : txStep s tx = some v) {r : ItemRow}
    {w : WorkerId} (hc : (rowAfter s tx r).status = .claimed)
    (hw : (rowAfter s tx r).workerId = some w) :
    (r.status = .claimed ∧ r.workerId = some w ∧
      ∀ results ref n, tx = .completeItems w results ref n → recordFor results r = none) ∨
    (∃ job size secs chunk, tx = .claimChunk job w size secs chunk ∧
      r ∈ claimed s.items job size s.now) := by
  cases tx with
  | tick | bulkInsert => exact .inl ⟨hc, hw, fun _ _ _ he => by cases he⟩
  | claimChunk job x size secs chunk =>
    simp only [rowAfter] at hc hw
    split at hw
    · rename_i hm
      obtain rfl : x = w := by simpa [claimRow] using hw
      exact .inr ⟨_, _, _, _, rfl, hm⟩
    · rename_i hm
      rw [if_neg hm] at hc
      exact .inl ⟨hc, hw, fun _ _ _ he => by cases he⟩
  | completeItems x results ref n =>
    simp only [txStep, Option.ite_none_right_eq_some] at hst
    simp only [rowAfter, completeRow] at hc hw
    by_cases ho : ownedBy x r = true
    · rw [if_pos ho] at hc hw
      cases hr : recordFor results r with
      | some res =>
        rw [hr] at hc
        have ht := hst.1.1 res (mem_recordFor hr).1
        simp only [finishRow] at hc
        rw [hc] at ht; cases ht
      | none =>
        rw [hr] at hc hw
        exact .inl ⟨hc, hw, fun _ _ _ he => by cases he; exact hr⟩
    · rw [if_neg ho] at hc hw
      refine .inl ⟨hc, hw, fun _ _ _ he => ?_⟩
      cases he
      exact absurd (ownedBy_iff.mpr ⟨hw, hc⟩) ho
  | renewLease x secs =>
    simp only [rowAfter] at hc hw
    split at hc <;> rename_i ho
    · rw [if_pos ho] at hw; exact .inl ⟨hc, hw, fun _ _ _ he => by cases he⟩
    · rw [if_neg ho] at hw; exact .inl ⟨hc, hw, fun _ _ _ he => by cases he⟩

theorem rowAfter_worker {s : QState} {tx : Tx} {r : ItemRow} (h : r.workerId ≠ none) :
    (rowAfter s tx r).workerId ≠ none := by
  cases tx with
  | tick | bulkInsert => exact h
  | claimChunk => simp only [rowAfter]; split <;> simp [claimRow, h]
  | completeItems =>
    simp only [rowAfter, completeRow]
    split
    · split <;> exact h
    · exact h
  | renewLease => simp only [rowAfter]; split <;> exact h

/-! ## The invariant -/

/-- A chunk item stands for a row of the job that was claimed. -/
def Stands (s : PState) (job : JobId) (c : ClaimedItem) : Prop :=
  ∃ r ∈ s.items.rows, r.id = c.id ∧ r.jobId = job ∧ r.externalId = c.externalId ∧
    r.prompt.getD "" = c.prompt ∧ r.workerId ≠ none

structure Owners (s : PState) : Prop where
  stands : ∀ w k, s.workers w = some k → ∀ c ∈ k.phase.chunk, Stands s k.job c
  nodup : ∀ w k, s.workers w = some k → (k.phase.chunk.map (·.id)).Nodup
  holds : ∀ r ∈ s.items.rows, r.status = .claimed → ∀ w, r.workerId = some w →
    ∃ k, s.workers w = some k ∧ k.job = r.jobId ∧ ∃ c ∈ k.phase.chunk, c.id = r.id

section step
variable {s v : PState} {l : Act}

theorem rowNext_worker {r : ItemRow} (h : r.workerId ≠ none) : (rowNext s l r).workerId ≠ none := by
  unfold rowNext
  split
  · exact h
  · exact rowAfter_worker h

theorem Stands.step (hr : pool.Reachable s) (hst : pool.step s l v) {job : JobId}
    {c : ClaimedItem} (h : Stands s job c) : Stands v job c := by
  obtain ⟨r, hm, h1, h2, h3, h4, h5⟩ := h
  obtain ⟨k1, k2, k3, k4⟩ := rowNext_sameKey s l r
  exact ⟨_, rowNext_mem hr hst hm, k1.trans h1, k2.trans h2, k3.trans h3, by rw [k4, h4],
    rowNext_worker h5⟩

/-- What a non-empty claim took. -/
theorem mem_chunk {w : WorkerId} {k : Worker} {chunk : List ClaimedItem}
    (hperm : chunk.isPerm (claimChunk s.items s.now k.job w k.settings.chunkSize
      k.settings.leaseTtlSeconds).2 = true) {c : ClaimedItem} :
    c ∈ chunk ↔ ∃ r ∈ claimed s.items k.job k.settings.chunkSize s.now, claimedItem r = c := by
  rw [(List.isPerm_iff.mp hperm).mem_iff, claimChunk_chunk, List.mem_map]

theorem claimed_ids_nodup (t : PromptItems) (job : JobId) (size : Nat) (now : Int) :
    ((claimed t job size now).map ItemRow.id).Nodup := by
  have hs : ((claimed t job size now).map ItemRow.id).Sublist (t.rows.map ItemRow.id) :=
    ((List.take_sublist _ _).trans List.filter_sublist).map _
  exact hs.nodup (List.pairwise_map.mpr (t.idsSorted.imp fun h => Nat.ne_of_lt h))

/-- How a row is CLAIMED by a worker after a step. -/
theorem owner_next (hr : pool.Reachable s) (hst : pool.step s l v) {r : ItemRow} {w : WorkerId}
    (hc : (rowNext s l r).status = .claimed) (hw : (rowNext s l r).workerId = some w) :
    (r.status = .claimed ∧ r.workerId = some w ∧
      ∀ n k cid chunk results ref, l = .complete w n → s.workers w = some k →
        k.phase = .completing cid chunk results ref → recordFor results r = none) ∨
    (∃ k cid chunk, l = .claim w cid chunk ∧ s.workers w = some k ∧
      r ∈ claimed s.items k.job k.settings.chunkSize s.now) := by
  have href := pool_refines.step s l v hr hst
  unfold rowNext at hc hw
  cases hx : txOf s l with
  | none =>
    simp only [hx] at hc hw
    refine .inl ⟨hc, hw, ?_⟩
    rintro n k cid chunk results ref rfl hk hp
    simp [txOf, hk, hp] at hx
  | some tx =>
    simp only [hx] at hc hw href
    rcases rowAfter_claimed href hc hw with ⟨h1, h2, h3⟩ | ⟨job, size, secs, chunk, rfl, hm⟩
    · refine .inl ⟨h1, h2, ?_⟩
      rintro n k cid chunk results ref rfl hk hp
      simp only [txOf, hk, Option.bind_some, hp, Option.some.injEq] at hx
      exact h3 results ref n hx.symm
    · cases l with
      | claim x cid ch =>
        simp only [txOf, Option.map_eq_some_iff, Tx.claimChunk.injEq] at hx
        obtain ⟨k, hk, rfl, rfl, rfl, rfl, rfl⟩ := hx
        exact .inr ⟨k, cid, ch, rfl, hk, hm⟩
      | complete x n =>
        simp only [txOf, Option.bind_eq_some_iff] at hx
        obtain ⟨k, -, hx⟩ := hx
        split at hx <;> cases hx
      | renew x => simp [txOf] at hx
      | tick | bulkInsert | start | renewFails | processed | writePart | written | raise | crash =>
        cases hx

theorem Owners.stands_step (hr : pool.Reachable s) (h : Owners s) (hst : pool.step s l v)
    {w : WorkerId} {k' : Worker} (hx : v.workers w = some k') {c : ClaimedItem}
    (hc : c ∈ k'.phase.chunk) : Stands v k'.job c := by
  have hm := move_of_step hst
  rcases worker_next hm hx with ⟨-, hp, -⟩ | ⟨k, hk, hj, -, hcase⟩
  · rw [hp] at hc; cases hc
  rw [hj]
  rcases hcase with ⟨hch, -⟩ | ⟨cid, chunk, hb, rfl, -, hp⟩ | ⟨n, -, hp⟩
  · exact (h.stands w k hk c (hch ▸ hc)).step hr hst
  · -- an item of a new chunk comes from a row that the claim took
    rw [hp] at hc
    cases hm with
    | leave => cases hc
    | @claim _ k₀ _ _ hk₀ hl hp₀ hne hfresh hperm =>
      obtain rfl := Option.some.inj (hk₀.symm.trans hk)
      obtain ⟨r, hmem, rfl⟩ := (mem_chunk hperm).mp hc
      obtain ⟨hrow, hcb⟩ := mem_claimed hmem
      refine ⟨_, rowNext_mem hr hst hrow, ?_⟩
      rw [rowNext_claim hk, if_pos hmem]
      exact ⟨rfl, (claimable_iff.mp hcb).1, rfl, rfl, by simp [claimRow]⟩
  · rw [hp] at hc; cases hc

theorem claim_nodup {w : WorkerId} {cid : ChunkId} {chunk : List ClaimedItem}
    (hst : pool.step s (.claim w cid chunk) v) : (chunk.map (·.id)).Nodup := by
  cases move_of_step hst with
  | leave => exact .nil
  | claim _ _ _ _ _ hperm =>
    refine ((List.isPerm_iff.mp hperm).map fun c : ClaimedItem => c.id).nodup_iff.mpr ?_
    rw [claimChunk_chunk, List.map_map]
    exact claimed_ids_nodup _ _ _ _

theorem Owners.nodup_step (h : Owners s) (hst : pool.step s l v) {w : WorkerId} {k' : Worker}
    (hx : v.workers w = some k') : (k'.phase.chunk.map (·.id)).Nodup := by
  rcases worker_next (move_of_step hst) hx with ⟨-, hp, -⟩ | ⟨k, hk, hj, -, hcase⟩
  · rw [hp]; exact .nil
  rcases hcase with ⟨hch, -⟩ | ⟨cid, chunk, hb, rfl, -, hp⟩ | ⟨n, -, hp⟩
  · rw [hch]; exact h.nodup w k hk
  · rw [hp]; exact claim_nodup hst
  · rw [hp]; exact .nil

/-- A completion applies a record to each row of the chunk that its worker holds. -/
theorem Owners.completed (hr : pool.Reachable s) (h : Owners s) {w : WorkerId} {n : Nat}
    (hm : Move s (.complete w n) v) {k : Worker} (hk : s.workers w = some k) {c : ClaimedItem}
    (hc : c ∈ k.phase.chunk) {r : ItemRow} (hrow : r ∈ s.items.rows) (hid : c.id = r.id) :
    ∃ cid chunk results ref, k.phase = .completing cid chunk results ref ∧
      recordFor results r ≠ none := by
  cases hm with
  | @complete _ k₀ cid chunk results ref hk₀ hl hp =>
    obtain rfl := Option.some.inj (hk₀.symm.trans hk)
    refine ⟨cid, chunk, results, ref, hp, fun hnone => ?_⟩
    obtain ⟨r₂, hr₂, e1, -, e3, -⟩ := h.stands w k₀ hk c hc
    obtain rfl := s.items.id_inj hr₂ hrow (e1.trans hid)
    have hres := (((books_reachable hr).held w k₀ hk).results results (by rw [hp]; rfl)).1
    have hmem : r₂.externalId ∈ results.map (·.externalId) := by
      rw [hres, e3]
      exact List.mem_map_of_mem hc
    obtain ⟨res, hres, he⟩ := List.mem_map.mp hmem
    have := List.find?_eq_none.mp hnone res hres
    simp [he] at this

theorem Owners.holds_step (hr : pool.Reachable s) (h : Owners s) (hst : pool.step s l v)
    {r : ItemRow} (hrow : r ∈ s.items.rows) {w : WorkerId}
    (hcl : (rowNext s l r).status = .claimed) (hw : (rowNext s l r).workerId = some w) :
    ∃ k, v.workers w = some k ∧ k.job = r.jobId ∧ ∃ c ∈ k.phase.chunk, c.id = r.id := by
  have hm := move_of_step hst
  rcases owner_next hr hst hcl hw with ⟨h1, h2, h3⟩ | ⟨k, cid, chunk, rfl, hk, hmem⟩
  · obtain ⟨k, hk, hj, c, hc, hid⟩ := h.holds r hrow h1 w h2
    obtain ⟨k', hk'⟩ := worker_persists hm hk
    rcases worker_next hm hk' with ⟨hn, -⟩ | ⟨k₀, hk₀, hj', -, hcase⟩
    · rw [hk] at hn; cases hn
    obtain rfl := Option.some.inj (hk₀.symm.trans hk)
    rcases hcase with ⟨hch, -⟩ | ⟨cid, chunk, hb, -, hp, -⟩ | ⟨n, rfl, -⟩
    · exact ⟨k', hk', hj'.trans hj, c, hch ▸ hc, hid⟩
    · rw [hp] at hc; cases hc
    · obtain ⟨cid, chunk, results, ref, hp, hsome⟩ := h.completed hr hm hk hc hrow hid
      exact absurd (h3 _ k₀ cid chunk results ref rfl hk hp) hsome
  · cases hm with
    | leave hk₀ hl hp he =>
      obtain rfl := Option.some.inj (hk₀.symm.trans hk)
      rw [he] at hmem; cases hmem
    | @claim _ k₀ _ _ hk₀ hl hp hne hfresh hperm =>
      obtain rfl := Option.some.inj (hk₀.symm.trans hk)
      refine ⟨_, setWorker_same _ _ _, (claimable_iff.mp (mem_claimed hmem).2).1.symm, _,
        (mem_chunk hperm).mpr ⟨r, hmem, rfl⟩, rfl⟩

theorem owners_step (hr : pool.Reachable s) (h : Owners s) (hst : pool.step s l v) : Owners v := by
  refine ⟨fun w k' hx c hc => h.stands_step hr hst hx hc,
    fun w k' hx => h.nodup_step hst hx, fun r' hr' hcl w hw => ?_⟩
  rcases (mem_next hr hst).mp hr' with ⟨r, hrow, rfl⟩ | hnew
  · obtain ⟨kid, kjob, -, -⟩ := rowNext_sameKey s l r
    rw [kid, kjob]
    exact h.holds_step hr hst hrow hcl hw
  · rw [(rowsNew_unclaimed hnew).workerId] at hw; cases hw

end step

theorem owners_reachable {s : PState} (h : pool.Reachable s) : Owners s := by
  refine h.induct (I := Owners) ?_ fun s l v hr hi hst => owners_step hr hi hst
  rintro _ ⟨now, rfl⟩
  refine ⟨fun _ _ hx => ?_, fun _ _ hx => ?_, fun _ hx => ?_⟩ <;> cases hx

/-- A row that a worker owns is in its chunk. -/
theorem owned_item {s : PState} (h : pool.Reachable s) {w : WorkerId} {k : Worker}
    (hk : s.workers w = some k) {r : ItemRow} (hr : r ∈ s.items.rows)
    (ho : ownedBy w r = true) : k.job = r.jobId ∧
      ∃ c ∈ k.phase.chunk, c.id = r.id ∧ c.externalId = r.externalId := by
  have hi := owners_reachable h
  obtain ⟨h1, h2⟩ := ownedBy_iff.mp ho
  obtain ⟨k', hk', hj, c, hc, hid⟩ := hi.holds r hr h2 w h1
  obtain rfl := Option.some.inj (hk'.symm.trans hk)
  refine ⟨hj, c, hc, hid, ?_⟩
  obtain ⟨r', hr', e1, -, e3, -⟩ := hi.stands w k' hk c hc
  rw [s.items.id_inj hr' hr (e1.trans hid)] at e3
  exact e3.symm

end BatchSystem.Engine
