import BatchSystem.Engine.Durable
import BatchSystem.Engine.Run

/-!
# Rows, coroutines and files of a run

While no lease of a living worker runs out, every row that was PENDING when the
run began is in one of three places (`RowNow`): still PENDING and without a
coroutine; CLAIMED by a worker of the run, with a coroutine for its ingested
prompt; or finished with the record that a coroutine returned. No two
coroutines are for one row (`RunRows`). The coroutines of a chunk that no worker
has open are returned, and their records are in a file that stays
(`RunFiles`).
-/
namespace BatchSystem.Engine

open BatchSystem.Core Domain Queue Storage PState

/-- The rows that the run has to process. -/
def EngineRun.takes (e : EngineRun) (r : ItemRow) : Bool := r.jobId == e.job && r.status == .pending

theorem takes_iff {e : EngineRun} {r : ItemRow} :
    e.takes r = true ↔ r.jobId = e.job ∧ r.status = .pending := by
  simp [EngineRun.takes]

/-- No row of the job has a lease that ran out while its worker is running. -/
def LeasesLive (e : EngineRun) (s : RunState) : Prop :=
  ∀ r ∈ s.pool.items.rows, ∀ w k, r.jobId = e.job → r.status = .claimed → r.workerId = some w →
    s.pool.workers w = some k → k.life = .running → leaseExpired s.pool.now r = false

/-- The runs in which every lease holds while its worker lives. -/
def EngineRun.live (e : EngineRun) (s₀ : PState) : LTS RunState RunAct :=
  (e.system s₀).restrict fun s _ => LeasesLive e s

/-! ## Rows -/

/-- What has become of row `r₀`. -/
inductive RowNow (e : EngineRun) (tasks : List RowTask) (r₀ r : ItemRow) : Prop
  | other (h : e.takes r₀ = false) (he : r = r₀)
  | queued (h : e.takes r₀ = true) (he : r = r₀) (hn : ∀ τ ∈ tasks, τ.item.id ≠ r₀.id)
  | taken {τ : RowTask} {w : WorkerId} (h : e.takes r₀ = true) (hτ : τ ∈ tasks)
      (hi : τ.item = claimedItem r₀) (hk : r₀.SameKey r) (hc : r.status = .claimed)
      (hw : w ∈ e.workers) (ho : r.workerId = some w)
  | finished {τ : RowTask} {res : ResultRecord} (h : e.takes r₀ = true) (hτ : τ ∈ tasks)
      (hi : τ.item = claimedItem r₀) (hr : τ.result = some res) (hk : r₀.SameKey r)
      (hs : r.status = res.status) (herr : r.error = res.error) (ha : r.attempts = res.attempts)

structure RunRows (e : EngineRun) (s₀ : PState) (s : RunState) : Prop where
  rows : List.Forall₂ (RowNow e s.proc.tasks) s₀.items.rows s.pool.items.rows
  source : ∀ τ ∈ s.proc.tasks, ∃ r₀ ∈ s₀.items.rows, e.takes r₀ = true ∧ τ.item = claimedItem r₀
  nodup : (s.proc.tasks.map (·.item.id)).Nodup

theorem rowsNew_ours {e : EngineRun} {p : PState} {a : Act} (h : e.ours a = true) :
    rowsNew p a = [] := by
  refine List.eq_nil_iff_forall_not_mem.mpr fun r hr => ?_
  obtain ⟨items, failed, rfl⟩ := rowsNew_job hr
  cases h

section rows
variable {e : EngineRun} {s₀ : PState} {s v : RunState} {l : RunAct}

/-- Only workers of the run make its steps. -/
theorem mem_of_ours {a : Act} {w : WorkerId} (h : e.ours a = true) (ha : a.mover = some w) :
    w ∈ e.workers := by
  cases a <;> cases ha <;> first | exact List.contains_iff_mem.mp h | cases h

/-- A row that is owned by a worker of the run was taken by it. -/
theorem owned_taken (h₀ : Startable e s₀) (hw : Working e s₀ s) {r₀ r : ItemRow}
    (hr₀ : r₀ ∈ s₀.items.rows) (hr : r ∈ s.pool.items.rows) (h : RowNow e s.proc.tasks r₀ r)
    {w : WorkerId} (hmem : w ∈ e.workers) (ho : ownedBy w r = true) :
    ∃ τ ∈ s.proc.tasks, e.takes r₀ = true ∧ τ.item = claimedItem r₀ ∧ r₀.SameKey r := by
  obtain ⟨-, hc⟩ := ownedBy_iff.mp ho
  cases h with
  | other h he =>
    subst he
    obtain ⟨k, hk, hm⟩ := hw.crew w hmem
    have hj := (owned_item hw.reachable hk hr ho).1
    exact absurd hc (h₀.unclaimed r hr₀ (hj.symm.trans hm.job))
  | queued h he =>
    subst he
    rw [(takes_iff.mp h).2] at hc
    cases hc
  | taken h hτ hi hk => exact ⟨_, hτ, h, hi, hk⟩
  | finished h hτ hi hr' hk hs =>
    have ht := (returned_of_result hr').2.2
    rw [← hs, hc] at ht
    cases ht

/-- A claim can only get a row that waits since the run began. -/
theorem claimable_queued (h₀ : Startable e s₀) (hw : Working e s₀ s) (hl : LeasesLive e s)
    {r₀ r : ItemRow} (hr₀ : r₀ ∈ s₀.items.rows) (hr : r ∈ s.pool.items.rows)
    (h : RowNow e s.proc.tasks r₀ r) (hc : claimable e.job s.pool.now r = true) :
    e.takes r₀ = true ∧ r = r₀ ∧ ∀ τ ∈ s.proc.tasks, τ.item.id ≠ r₀.id := by
  obtain ⟨hj, hcase⟩ := claimable_iff.mp hc
  cases h with
  | other h he =>
    subst he
    rcases hcase with hp | ⟨hcl, -⟩
    · rw [takes_iff.mpr ⟨hj, hp⟩] at h
      cases h
    · exact absurd hcl (h₀.unclaimed r hr₀ hj)
  | queued h he hn => exact ⟨h, he, hn⟩
  | @taken τ w h hτ hi hk hcl hmem ho =>
    rcases hcase with hp | ⟨-, hexp⟩
    · rw [hcl] at hp
      cases hp
    · -- the worker holds the row, so it is running, and its lease is good
      obtain ⟨k, hk, -, c, hcm, -⟩ := (owners_reachable hw.reachable).holds r hr hcl w ho
      rcases (hw.member hmem hk).life with hrun | hleft
      · rw [hl r hr w k hj hcl ho hk hrun] at hexp
        cases hexp
      · rw [left_claiming hw.reachable w k hk hleft] at hcm
        cases hcm
  | finished h hτ hi hr' hk hs =>
    have ht := not_terminal_of_claimable hc
    rw [hs, (returned_of_result hr').2.2] at ht
    cases ht

theorem mem_gathered {tasks : List RowTask} {results : List ResultRecord} {res : ResultRecord}
    (hg : gathered tasks = some results) (hr : res ∈ results) :
    ∃ τ ∈ tasks, τ.result = some res := by
  induction tasks generalizing results with
  | nil =>
    cases hg
    cases hr
  | cons τ rest ih =>
    simp only [gathered, Option.bind_eq_some_iff, Option.map_eq_some_iff] at hg
    obtain ⟨res', hres, rs, hrs, rfl⟩ := hg
    rcases List.mem_cons.mp hr with rfl | hr
    · exact ⟨τ, List.mem_cons_self, hres⟩
    · obtain ⟨τ', hτ', h⟩ := ih hrs hr
      exact ⟨τ', List.mem_cons_of_mem _ hτ', h⟩

/-- The record that a completion applies to a row is that of a coroutine for
this row. -/
theorem record_of_row (hw : Working e s₀ s) (hr : RunRows e s₀ s) {w : WorkerId} {k : Worker}
    {cid : ChunkId} {chunk : List ClaimedItem} {results : List ResultRecord} {ref : String}
    (hmem : w ∈ e.workers) (hk : s.pool.workers w = some k)
    (hp : k.phase = .completing cid chunk results ref) {r₀ r : ItemRow}
    (hr₀ : r₀ ∈ s₀.items.rows) (ht : e.takes r₀ = true) (hkey : r₀.SameKey r) {res : ResultRecord}
    (hres : recordFor results r = some res) :
    ∃ τ ∈ s.proc.tasks, τ.item = claimedItem r₀ ∧ τ.result = some res := by
  obtain ⟨hin, hid⟩ := mem_recordFor hres
  have hg := (hw.chunks w hmem k hk cid (by rw [hp]; rfl)).2 results (by rw [hp]; rfl)
  obtain ⟨τ, hτ, hτr⟩ := mem_gathered hg hin
  have hτ := (List.mem_filter.mp hτ).1
  obtain ⟨r₁, hr₁, ht₁, hi₁⟩ := hr.source τ hτ
  have hext : r₁.externalId = r₀.externalId := by
    have h1 := (returned_of_result hτr).2.1
    rw [hi₁] at h1
    exact h1.symm.trans (hid.trans hkey.2.2.1)
  have hjob : r₁.jobId = r₀.jobId := (takes_iff.mp ht₁).1.trans (takes_iff.mp ht).1.symm
  obtain rfl := s₀.items.key_inj hr₁ hr₀ hjob hext
  exact ⟨τ, hτ, hi₁, hτr⟩

/-- A row that stays as it is. -/
theorem RowNow.stays {tasks tasks' : List RowTask} {r₀ r : ItemRow} (h : RowNow e tasks r₀ r)
    (hsub : tasks ⊆ tasks')
    (hnew : r = r₀ → (∀ τ ∈ tasks, τ.item.id ≠ r₀.id) → ∀ τ ∈ tasks', τ.item.id ≠ r₀.id) :
    RowNow e tasks' r₀ r := by
  cases h with
  | other h he => exact .other h he
  | queued h he hn => exact .queued h he (hnew he hn)
  | taken h hτ hi hk hc hw ho => exact .taken h (hsub hτ) hi hk hc hw ho
  | finished h hτ hi hr hk hs herr ha => exact .finished h (hsub hτ) hi hr hk hs herr ha

theorem rowNow_next (h₀ : Startable e s₀) (hw : Working e s₀ s) (hr : RunRows e s₀ s)
    (hl : LeasesLive e s) {a : Act} {p : PState} (ha : e.ours a = true)
    (hst : pool.step s.pool a p) {r₀ r : ItemRow} (hr₀ : r₀ ∈ s₀.items.rows)
    (hrow : r ∈ s.pool.items.rows) (h : RowNow e s.proc.tasks r₀ r) :
    RowNow e (e.spawn s.proc a).tasks r₀ (rowNext s.pool a r) := by
  have same : RowNow e s.proc.tasks r₀ r := h.stays (fun _ h => h) fun _ hn => hn
  cases move_of_step hst with
  | bulkInsert | start | renewFails | raise | crash => cases ha
  | tick | processed | dropped | writePart | written => exact same
  | @leave w k cid hk hl' hp he =>
    rw [rowNext_claim hk, he, if_neg List.not_mem_nil]
    exact h.stays (spawn_subset _ _) fun _ hn τ hτ => by
      rcases mem_spawn hτ with hτ | ⟨_, _, _, hcl, c, hc, rfl⟩
      · exact hn τ hτ
      · cases hcl
        cases hc
  | @claim w k cid chunk hk hl' hp hne hfresh hperm =>
    have hmem : w ∈ e.workers := mem_of_ours ha rfl
    have hm := hw.member hmem hk
    rw [rowNext_claim hk]
    split
    · rename_i hin
      have hcl := (mem_claimed hin).2
      rw [hm.job] at hcl
      obtain ⟨ht, rfl, -⟩ := claimable_queued h₀ hw hl hr₀ hrow h hcl
      have hitem : claimedItem r ∈ chunk := (mem_chunk hperm).mpr ⟨r, hin, rfl⟩
      refine .taken (τ := ⟨cid, e.settings, claimedItem r, .waiting⟩) ht ?_ rfl
        (claimRow_keeps _ _ r) rfl hmem rfl
      exact List.mem_append_right _ (List.mem_map.mpr ⟨_, hitem, rfl⟩)
    · rename_i hout
      refine h.stays (spawn_subset _ _) fun he hn τ hτ => ?_
      rcases mem_spawn hτ with hτ | ⟨_, _, _, hcl, c, hc, rfl⟩
      · exact hn τ hτ
      · -- the items of the new chunk are those of other rows
        cases hcl
        obtain ⟨r', hr', rfl⟩ := (mem_chunk hperm).mp hc
        intro hid
        subst he
        obtain rfl := s.pool.items.id_inj (mem_claimed hr').1 hrow hid
        exact hout hr'
  | @renew w k cid chunk wake hk =>
    rw [rowNext_renew hk]
    split
    · rename_i ho
      obtain ⟨τ, hτ, ht, hi, hkey⟩ :=
        owned_taken h₀ hw hr₀ hrow h (mem_of_ours ha rfl) ho
      obtain ⟨hwid, hc⟩ := ownedBy_iff.mp ho
      exact .taken ht hτ hi hkey hc (mem_of_ours ha rfl) hwid
    · exact same
  | @complete w k cid chunk results ref hk hl' hp =>
    rw [rowNext_complete hk hp]
    cases ho : ownedBy w r with
    | false =>
      rw [completeRow_of_not_owned ho]
      exact same
    | true =>
      have hmem : w ∈ e.workers := mem_of_ours ha rfl
      obtain ⟨-, -, ht, -, hkey⟩ := owned_taken h₀ hw hr₀ hrow h hmem ho
      rw [completeRow, if_pos ho]
      cases hres : recordFor results r with
      | none => exact same
      | some res =>
        obtain ⟨τ, hτ, hi, hτr⟩ := record_of_row hw hr hmem hk hp hr₀ ht hkey hres
        exact .finished ht hτ hi hτr (hkey.trans (finishRow_keeps res ref r)) rfl rfl rfl

/-- An item that a worker of the run claims: a row that has waited since the
run began. -/
theorem claimed_item (h₀ : Startable e s₀) (hw : Working e s₀ s) (hr : RunRows e s₀ s)
    (hl : LeasesLive e s) {w : WorkerId} {cid : ChunkId} {chunk : List ClaimedItem} {p : PState}
    (ha : e.ours (.claim w cid chunk) = true) (hst : pool.step s.pool (.claim w cid chunk) p)
    {c : ClaimedItem} (hc : c ∈ chunk) : ∃ r₀ ∈ s₀.items.rows, e.takes r₀ = true ∧
      (∀ τ ∈ s.proc.tasks, τ.item.id ≠ r₀.id) ∧ c = claimedItem r₀ := by
  cases move_of_step hst with
  | leave => cases hc
  | @claim _ k _ _ hk hl' hp hne hfresh hperm =>
    obtain ⟨r, hin, rfl⟩ := (mem_chunk hperm).mp hc
    obtain ⟨hrow, hcl⟩ := mem_claimed hin
    rw [(hw.member (mem_of_ours ha rfl) hk).job] at hcl
    obtain ⟨r₀, hr₀, hnow⟩ := forall₂_mem_right hr.rows hrow
    obtain ⟨ht, rfl, hn⟩ := claimable_queued h₀ hw hl hr₀ hrow hnow hcl
    exact ⟨r, hr₀, ht, hn, rfl⟩

/-- The coroutines move on. -/
theorem RunRows.advance (hr : RunRows e s₀ s) (hpool : v.pool = s.pool)
    (hadv : List.Forall₂ (Advances e) s.proc.tasks v.proc.tasks) : RunRows e s₀ v := by
  have hitems := Advances.items hadv
  refine ⟨?_, fun τ' hτ' => ?_, ?_⟩
  · rw [hpool]
    refine hr.rows.imp fun r₀ r h => ?_
    cases h with
    | other h he => exact .other h he
    | queued h he hn =>
      refine .queued h he fun τ' hτ' => ?_
      obtain ⟨τ, hτ, hadv⟩ := forall₂_mem_right hadv hτ'
      rw [hadv.item]
      exact hn τ hτ
    | taken h hτ hi hk hc hw ho =>
      obtain ⟨τ', hτ', hadv⟩ := forall₂_mem_left hadv hτ
      exact .taken h hτ' (hadv.item.trans hi) hk hc hw ho
    | finished h hτ hi hres hk hs herr hat =>
      obtain ⟨τ', hτ', hadv⟩ := forall₂_mem_left hadv hτ
      exact .finished h hτ' (hadv.item.trans hi) (hadv.result _ hres) hk hs herr hat
  · obtain ⟨τ, hτ, hadv⟩ := forall₂_mem_right hadv hτ'
    rw [hadv.item]
    exact hr.source τ hτ
  · have hids := congrArg (List.map (·.id)) hitems
    rw [List.map_map, List.map_map] at hids
    exact hids ▸ hr.nodup

theorem RunRows.pool_step (h₀ : Startable e s₀) (hw : Working e s₀ s) (hr : RunRows e s₀ s)
    (hl : LeasesLive e s) {a : Act} (ha : e.ours a = true) {p : PState}
    (hst : pool.step s.pool a p) : RunRows e s₀ ⟨p, e.spawn s.proc a⟩ := by
  refine ⟨?_, fun τ hτ => ?_, ?_⟩
  · rw [step_rows hw.reachable hst, rowsNew_ours ha, List.append_nil,
      List.forall₂_map_right_iff]
    exact forall₂_imp_mem hr.rows fun r₀ hr₀ r hrow h => rowNow_next h₀ hw hr hl ha hst hr₀ hrow h
  · rcases mem_spawn hτ with hτ | ⟨w, cid, chunk, rfl, c, hc, rfl⟩
    · exact hr.source τ hτ
    · obtain ⟨r₀, hr₀, ht, -, he⟩ := claimed_item h₀ hw hr hl ha hst hc
      exact ⟨r₀, hr₀, ht, he⟩
  · cases a with
    | claim w cid chunk =>
      show ((s.proc.tasks ++ _).map _).Nodup
      rw [List.map_append]
      refine List.nodup_append.mpr ⟨hr.nodup, ?_, fun a ha' b hb => ?_⟩
      · rw [List.map_map]
        exact claim_nodup hst
      · obtain ⟨τ, hτ, rfl⟩ := List.mem_map.mp ha'
        rw [List.map_map] at hb
        obtain ⟨c, hc, rfl⟩ := List.mem_map.mp hb
        obtain ⟨r₀, -, -, hn, he⟩ := claimed_item h₀ hw hr hl ha hst hc
        show τ.item.id ≠ c.id
        rw [he]
        exact hn τ hτ
    | _ => exact hr.nodup

theorem runRows_step (h₀ : Startable e s₀) (hw : Working e s₀ s) (hr : RunRows e s₀ s)
    (hl : LeasesLive e s) (hm : RunMove e s l v) : RunRows e s₀ v := by
  rcases pool_step hw hm with ⟨hpool, hadv⟩ | ⟨a, ha, hst, hproc⟩
  · exact hr.advance hpool hadv
  · rw [show v = ⟨v.pool, e.spawn s.proc a⟩ by rw [← hproc]]
    exact hr.pool_step h₀ hw hl ha hst

/-! ## Files -/

/-- The chunk is open in a worker of the run. -/
def OpenIn (e : EngineRun) (p : PState) (cid : ChunkId) : Prop :=
  ∃ w ∈ e.workers, ∃ k, p.workers w = some k ∧ k.phase.open = true ∧ k.phase.chunkId = some cid

/-- The coroutines of the chunk have returned, and their records are in a file
that stays. -/
def Stored (e : EngineRun) (s : RunState) (cid : ChunkId) : Prop :=
  ∃ rs, gathered (s.proc.chunkTasks cid) = some rs ∧ Sealed s.pool (wholeFile e.job cid rs)

structure RunFiles (e : EngineRun) (s₀ : PState) (s : RunState) : Prop where
  old : s₀.files ⊆ s.pool.files
  source : ∀ f ∈ s.pool.files, f ∈ s₀.files ∨ ∃ τ ∈ s.proc.tasks, τ.chunkId = f.chunkId
  stored : ∀ τ ∈ s.proc.tasks, OpenIn e s.pool τ.chunkId ∨ Stored e s τ.chunkId

/-- A chunk that a worker of the run holds has a coroutine, and is new. -/
theorem Working.task (hw : Working e s₀ s) {w : WorkerId} (hmem : w ∈ e.workers) {k : Worker}
    (hk : s.pool.workers w = some k) {cid : ChunkId} (hc : k.phase.chunkId = some cid) :
    (∃ τ ∈ s.proc.tasks, τ.chunkId = cid) ∧ cid ∉ s₀.usedChunks := by
  have hne := ((books_reachable hw.reachable).held w k hk).nonempty cid hc
  rw [← (hw.chunks w hmem k hk cid hc).1] at hne
  obtain ⟨τ, hτ⟩ : ∃ τ, τ ∈ s.proc.chunkTasks cid :=
    List.exists_mem_of_ne_nil _ fun h => hne (by rw [h]; rfl)
  obtain ⟨hτ, he⟩ := List.mem_filter.mp hτ
  have he : τ.chunkId = cid := of_decide_eq_true he
  exact ⟨⟨τ, hτ, he⟩, he ▸ (hw.used τ hτ).2⟩

/-- The files that an act of the run writes belong to new chunks. -/
theorem old_file (h₀ : Startable e s₀) (hw : Working e s₀ s) {a : Act} {p : PState}
    (ha : e.ours a = true) (hm : Move s.pool a p) {f : ChunkFile} (h₀f : f ∈ s₀.files)
    (hf : f ∈ s.pool.files) : f ∈ p.files := by
  have hused := (books_reachable h₀.reachable).fileUsed f h₀f
  cases hm with
  | @writePart w k cid chunk results n torn hk hl hp =>
    have hc : k.phase.chunkId = some cid := by rw [hp]; rfl
    have hnew := (hw.task (mem_of_ours ha rfl) hk hc).2
    refine putFile_other hf fun ⟨_, he⟩ => hnew ?_
    rwa [← show f.chunkId = cid from he]
  | @written w k cid chunk results hk hl hp =>
    have hc : k.phase.chunkId = some cid := by rw [hp]; rfl
    have hnew := (hw.task (mem_of_ours ha rfl) hk hc).2
    refine putFile_other hf fun ⟨_, he⟩ => hnew ?_
    rwa [← show f.chunkId = cid from he]
  | _ => exact hf

theorem new_file (hw : Working e s₀ s) {a : Act} {p : PState} (ha : e.ours a = true)
    (hm : Move s.pool a p) {f : ChunkFile} (hf : f ∈ p.files) :
    f ∈ s.pool.files ∨ ∃ τ ∈ s.proc.tasks, τ.chunkId = f.chunkId := by
  cases hm with
  | @writePart w k cid chunk results n torn hk hl hp =>
    rcases mem_putFile hf with rfl | ⟨hf, -⟩
    · exact .inr (hw.task (mem_of_ours ha rfl) hk
        (by rw [hp]; rfl)).1
    · exact .inl hf
  | @written w k cid chunk results hk hl hp =>
    rcases mem_putFile hf with rfl | ⟨hf, -⟩
    · exact .inr (hw.task (mem_of_ours ha rfl) hk (by rw [hp]; rfl)).1
    · exact .inl hf
  | _ => exact .inl hf

/-- An open chunk stays open, or its file is written. -/
theorem stored_next (hw : Working e s₀ s) {a : Act} {p : PState} (ha : e.ours a = true)
    (hst : pool.step s.pool a p) {cid : ChunkId}
    (h : OpenIn e s.pool cid ∨ Stored e s cid) (hu : cid ∈ s.pool.usedChunks) :
    OpenIn e p cid ∨ Stored e ⟨p, e.spawn s.proc a⟩ cid := by
  have hm := move_of_step hst
  rcases h with ⟨w, hmem, k, hk, hopen, hc⟩ | ⟨rs, hg, hs⟩
  · obtain ⟨k', hk', -, hn⟩ := member_next hm ha hk (hw.member hmem hk)
    have hkeep : k'.phase.open = true → k'.phase.chunkId = some cid → OpenIn e p cid :=
      fun ho hc' => ⟨w, hmem, k', hk', ho, hc'⟩
    have hchunk := (hw.chunks w hmem k hk cid hc).2
    generalize hph : k.phase = ph at hn hopen hc hchunk
    generalize hph' : k'.phase = ph' at hn hkeep
    cases hn with
    | same => exact .inl (hkeep hopen hc)
    | claim => cases hopen
    | renew | processed => exact .inl (hkeep rfl hc)
    | complete => cases hopen
    | @written _ chunk results ref ha' =>
      cases hc
      subst ha'
      refine .inr ⟨results, hchunk results rfl, ?_⟩
      have hb := books_reachable (hw.reachable.step hst)
      have hjob := (hw.member hmem hk).job
      cases hm with
      | @written _ k₀ cid' chunk' results' hk₀ hl hp =>
        obtain rfl := Option.some.inj (hk₀.symm.trans hk)
        rw [hp] at hph
        cases hph
        refine ⟨hjob ▸ putFile_self, ?_⟩
        rintro ⟨x, kx, hkx, hox, hcx⟩
        -- the worker that wrote it is past `write_chunk`
        obtain rfl := hb.chunkOwner w x _ kx cid hk' hkx (by rw [hph']; rfl) hcx
        obtain rfl := Option.some.inj (hk'.symm.trans hkx)
        rw [hph'] at hox
        cases hox
  · refine .inr ⟨rs, ?_, hs.step hw.reachable hst⟩
    show gathered ((e.spawn s.proc a).chunkTasks cid) = _
    rw [spawn_old hm hu]
    exact hg

theorem runFiles_step (h₀ : Startable e s₀) (hw : Working e s₀ s) (hf : RunFiles e s₀ s)
    (hm : RunMove e s l v) : RunFiles e s₀ v := by
  rcases pool_step hw hm with ⟨hpool, hadv⟩ | ⟨a, ha, hst, hproc⟩
  · refine ⟨hpool ▸ hf.old, fun f hfm => ?_, fun τ' hτ' => ?_⟩
    · rcases hf.source f (hpool ▸ hfm) with h | ⟨τ, hτ, hc⟩
      · exact .inl h
      · obtain ⟨τ', hτ', ha⟩ := forall₂_mem_left hadv hτ
        exact .inr ⟨τ', hτ', ha.chunkId.trans hc⟩
    · obtain ⟨τ, hτ, ha⟩ := forall₂_mem_right hadv hτ'
      rw [ha.chunkId, hpool]
      refine (hf.stored τ hτ).imp_right fun ⟨rs, hg, hs⟩ => ?_
      exact ⟨rs, Advances.gathered (Advances.filter hadv _) hg, hpool ▸ hs⟩
  · obtain ⟨p, q⟩ := v
    obtain rfl : q = e.spawn s.proc a := hproc
    have hm := move_of_step hst
    refine ⟨fun f hf₀ => old_file h₀ hw ha hm hf₀ (hf.old hf₀), fun f hfm => ?_, fun τ hτ => ?_⟩
    · rcases new_file hw ha hm hfm with hfm | ⟨τ, hτ, hc⟩
      · exact (hf.source f hfm).imp_right fun ⟨τ, hτ, hc⟩ => ⟨τ, spawn_subset _ _ hτ, hc⟩
      · exact .inr ⟨τ, spawn_subset _ _ hτ, hc⟩
    · rcases mem_spawn hτ with hτ | ⟨w, cid, chunk, rfl, c, hc, rfl⟩
      · exact stored_next hw ha hst (hf.stored τ hτ) (hw.used τ hτ).1
      · -- a worker of the run has just claimed the chunk
        cases hm with
        | leave => cases hc
        | claim hk =>
          exact .inl ⟨w, mem_of_ours ha rfl, _, setWorker_same _ _ _, rfl, rfl⟩

/-! ## After an empty claim -/

/-- When a worker has left, every row has its coroutine. -/
def AllTaken (e : EngineRun) (s₀ : PState) (s : RunState) : Prop :=
  ∀ w ∈ e.workers, ∀ k, s.pool.workers w = some k → k.life = .left →
    ∀ r₀ ∈ s₀.items.rows, e.takes r₀ = true → ∃ τ ∈ s.proc.tasks, τ.item = claimedItem r₀

theorem allTaken_step (h₀ : Startable e s₀) (hw : Working e s₀ s) (hr : RunRows e s₀ s)
    (ht : AllTaken e s₀ s) (hm : RunMove e s l v) : AllTaken e s₀ v := by
  intro w hmem k' hk' hleft r₀ hr₀ htakes
  rcases pool_step hw hm with ⟨hpool, hadv⟩ | ⟨a, ha, hst, hproc⟩
  · rw [hpool] at hk'
    obtain ⟨τ, hτ, hi⟩ := ht w hmem k' hk' hleft r₀ hr₀ htakes
    obtain ⟨τ', hτ', hadv⟩ := forall₂_mem_left hadv hτ
    exact ⟨τ', hτ', hadv.item.trans hi⟩
  · suffices h : ∃ τ ∈ s.proc.tasks, τ.item = claimedItem r₀ by
      obtain ⟨τ, hτ, hi⟩ := h
      exact ⟨τ, hproc ▸ spawn_subset _ _ hτ, hi⟩
    obtain ⟨k, hk, hmk⟩ := hw.crew w hmem
    cases life_next (move_of_step hst) hk' with
    | new hn =>
      rw [hk] at hn
      cases hn
    | same h => exact ht w hmem k' h hleft r₀ hr₀ htakes
    | moved _ _ _ h =>
      rw [hleft] at h
      cases h
    | stopped _ _ h =>
      rw [hleft] at h
      rcases h with h | h <;> cases h
    | left h _ _ _ he =>
      -- no row was claimable
      obtain rfl := Option.some.inj (h.symm.trans hk)
      rw [hmk.job, hmk.settings] at he
      have hnone := (claimed_eq_nil h₀.chunkSize).mp he
      obtain ⟨r, hrow, hnow⟩ := forall₂_mem_left hr.rows hr₀
      cases hnow with
      | other h =>
        rw [htakes] at h
        cases h
      | queued _ h =>
        have hcl := hnone r hrow
        rw [h, claimable_iff.mpr ⟨(takes_iff.mp htakes).1, .inl (takes_iff.mp htakes).2⟩] at hcl
        cases hcl
      | taken _ hτ hi | finished _ hτ hi => exact ⟨_, hτ, hi⟩

end rows

/-! ## Every run -/

structure RunBooks (e : EngineRun) (s₀ : PState) (s : RunState) : Prop where
  working : Working e s₀ s
  rows : RunRows e s₀ s
  files : RunFiles e s₀ s
  taken : AllTaken e s₀ s

theorem runBooks_reachable {e : EngineRun} {s₀ : PState} (h₀ : Startable e s₀) {s : RunState}
    (h : (e.live s₀).Reachable s) : RunBooks e s₀ s := by
  refine h.induct (I := RunBooks e s₀) ?_ fun s l v _ hb hst => ?_
  · rintro _ ⟨n, -, rfl⟩
    refine ⟨working_init h₀ n, ⟨?_, fun τ hτ => ?_, .nil⟩, ⟨fun f hf => hf, fun f hf => .inl hf,
      fun τ hτ => ?_⟩, fun w hw k hk hl => ?_⟩
    · refine List.forall₂_same.mpr fun r _ => ?_
      cases ht : e.takes r with
      | false => exact .other ht rfl
      | true => exact .queued ht rfl fun τ hτ => by cases hτ
    · cases hτ
    · cases hτ
    · obtain rfl := Option.some.inj ((if_pos hw : (e.started s₀).workers w = _).symm.trans hk)
      cases hl
  · obtain ⟨hst, hl⟩ := hst
    have hm := runMove_of_step hst
    exact ⟨working_step hb.working hm, runRows_step h₀ hb.working hb.rows hl hm,
      runFiles_step h₀ hb.working hb.files hm, allTaken_step h₀ hb.working hb.rows hb.taken hm⟩

end BatchSystem.Engine
