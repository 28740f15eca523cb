import BatchSystem.Service.JobStates

/-!
# The model of a job and the model of its requests

`submit` stores `req.model or settings.llm_model` in the job's record, and no
later step changes it (`submitted_model`). A worker takes the model of its
requests from the settings of its own process (`requests_model_iff`). So the rows of
a job run on the model that was stored exactly in the processes that have it as
their `llm_model` (`submitted_model_iff`).
-/
namespace BatchSystem.Service

open BatchSystem.Core Domain Queue Engine Ingest

/-! ## The requests of a chunk -/

/-- The requests of all rows of a chunk. -/
def chunkRequests (settings : Settings) (chunk : List ClaimedItem)
    (client : Nat → Nat → Outcome) (latencyMs : Nat → Int) : List InferenceRequest :=
  chunk.flatMap fun c => (processRow settings c (client c.id) (latencyMs c.id)).2.requests

section requests
variable (settings : Settings)

/-- A processing worker sends the model of its own settings. -/
theorem requests_model_iff {chunk : List ClaimedItem} (hne : chunk ≠ []) (model : String) :
    (∀ client latencyMs, ∀ q ∈ chunkRequests settings chunk client latencyMs, q.model = model) ↔
      settings.llmModel = model ∨ settings.retryMaxAttempts = 0 := by
  constructor
  · intro h
    by_cases hz : settings.retryMaxAttempts = 0
    · exact .inr hz
    obtain ⟨c, hc⟩ := List.exists_mem_of_ne_nil _ hne
    obtain ⟨n, hn, h0⟩ := processRow_requests settings c (fun _ => .success "") 0
    have hmem : requestFor settings c ∈
        chunkRequests settings chunk (fun _ _ => .success "") (fun _ => 0) := by
      refine List.mem_flatMap.mpr ⟨c, hc, ?_⟩
      rw [hn, List.mem_replicate]
      exact ⟨h0 hz, rfl⟩
    exact .inl (h _ _ _ hmem)
  · intro h client latencyMs q hq
    obtain ⟨c, -, hq⟩ := List.mem_flatMap.mp hq
    obtain ⟨n, hn, -⟩ := processRow_requests settings c (client c.id) (latencyMs c.id)
    rcases h with h | h
    · rw [hn, List.mem_replicate] at hq
      rw [hq.2]
      exact h
    · rw [processRow_snd, h] at hq
      cases hq

end requests

/-! ## The record of a job -/

section runs
variable {text : Json → String} {s v : SState}

theorem model_kept {l : SAct} (hc : Change text s l v) {job : JobId} {row row' : JobRow}
    (hrow : s.jobs.get job = some row) (hrow' : v.jobs.get job = some row') :
    row'.model = row.model := by
  cases job_next hc hrow' with
  | same h => rw [Option.some.inj (h.symm.trans hrow)]
  | created _ hn => rw [hrow] at hn; cases hn
  | state _ _ _ h he | total _ _ _ _ h he =>
    obtain rfl := Option.some.inj (h.symm.trans hrow)
    rw [he]

/-- The record keeps the model of its submission. -/
theorem submitted_model {tr : List (Trans SState SAct)} (hr : (system text).Run tr s)
    {t : Trans SState SAct} (ht : t ∈ tr) {e : ExecId} {job : JobId} {inputPath : String}
    {model : Option String} {settings : Settings}
    (hl : t.lbl = .submit e job inputPath model settings) :
    ∃ row, s.jobs.get job = some row ∧ row.model = modelOr model settings := by
  obtain ⟨tr₁, tr₂, rfl⟩ := List.append_of_mem ht
  obtain ⟨hr₁, hst, hp⟩ := hr.split
  have hc := change_of_step hst
  refine hp.preserve (I := fun u => ∃ row, u.jobs.get job = some row ∧
    row.model = modelOr model settings) ?_ (hr₁.reachable.step hst) ?_
  · rintro u l w - ⟨row, hrow, hm⟩ hst
    have hc := change_of_step hst
    obtain ⟨row', hrow'⟩ := job_persists hc hrow
    exact ⟨row', hrow', (model_kept hc hrow hrow').trans hm⟩
  · rw [hl] at hc
    generalize t.post = u at hc
    cases hc with
    | @submit _ _ _ _ _ jobs _ hj =>
      refine ⟨newJob job inputPath model settings, ?_, rfl⟩
      show jobs.get job = _
      rw [Jobs.get_create hj, newJob, if_pos rfl]

/-- **A job runs on the model it was submitted with exactly in the processes
whose `llm_model` it is** (or that make no attempt), whichever execution the
worker belongs to. -/
theorem submitted_model_iff {tr : List (Trans SState SAct)} (hr : (system text).Run tr s)
    {t : Trans SState SAct} (ht : t ∈ tr) {e : ExecId} {job : JobId} {inputPath : String}
    {model : Option String} {settings : Settings}
    (hl : t.lbl = .submit e job inputPath model settings) {w : WorkerId} {k : Worker}
    (hk : s.pool.workers w = some k) (hj : k.job = job) {cid : Storage.ChunkId}
    {chunk : List ClaimedItem} {hb : Heartbeat} (hp : k.phase = .processing cid chunk hb) :
    (∃ e' x, s.execs e' = some x ∧ w ∈ x.workers ∧ x.job = job ∧ x.settings = k.settings) ∧
      ∃ row, s.jobs.get job = some row ∧ row.model = modelOr model settings ∧
        ((∀ client latencyMs, ∀ q ∈ chunkRequests k.settings chunk client latencyMs,
            q.model = row.model) ↔
          k.settings.llmModel = row.model ∨ k.settings.retryMaxAttempts = 0) := by
  obtain ⟨row, hrow, hm⟩ := submitted_model hr ht hl
  obtain ⟨e', x, hx, hw, hkj, hks⟩ := worker_execution hr.reachable hk
  refine ⟨⟨e', x, hx, hw, hkj.symm.trans hj, hks.symm⟩, row, hrow, hm, ?_⟩
  have hheld := (books_reachable (pool_reachable hr.reachable)).held w k hk
  have hne := hheld.nonempty cid (by rw [hp]; rfl)
  rw [hp] at hne
  exact requests_model_iff k.settings hne _

end runs
/-! ## Non-vacuity -/

/-- A job submitted with the model "m", to a process with the default one, and
taken up after a crash by a process with the settings `settings`. -/
def modelRun (settings : Settings) : List SAct :=
  [.submit 0 "j" "in.json" (some "m") oneWorker, .setIngesting 0 fileA, .crash [0],
    .resume [1] settings, .setIngesting 1 fileA, .flush 1, .setTotal 1, .setRunning 1,
    .engineStart 1 ["w1"], .worker (.claim "w1" chunk1 [⟨1, "a", "hi", 1⟩])]

/-- The default model is used instead of the one that was asked for. -/
theorem submitted_model_ignored : ¬ ∀ tr s, (system noText).Run tr s → ∀ t ∈ tr,
    ∀ e job inputPath model settings, t.lbl = .submit e job inputPath model settings →
      ∀ w k cid chunk hb, s.pool.workers w = some k → k.job = job →
        k.phase = .processing cid chunk hb → ∀ client latencyMs,
          ∀ q ∈ chunkRequests k.settings chunk client latencyMs,
            q.model = modelOr model settings := by
  intro h
  obtain ⟨⟨tr, s⟩, he, t, ht, hl, k, hb, hk, hj, hp, hq⟩ : ∃ p,
      LTS.exec (sysStep noText) (.init 0) (modelRun oneWorker) = some p ∧ ∃ t, p.1.head? = some t ∧
        t.lbl = .submit 0 "j" "in.json" (some "m") oneWorker ∧ ∃ k hb,
          p.2.pool.workers "w1" = some k ∧ k.job = "j" ∧
            k.phase = .processing chunk1 [⟨1, "a", "hi", 1⟩] hb ∧
              (chunkRequests k.settings [⟨1, "a", "hi", 1⟩] (answer "one") (fun _ => 5)).any
                (fun q => q.model ≠ "m") = true :=
    ⟨_, rfl, _, rfl, rfl, _, _, rfl, rfl, rfl, by decide⟩
  have hr : (system noText).Run tr s := ⟨_, ⟨0, rfl⟩, LTS.path_of_exec he⟩
  obtain ⟨q, hq, hne⟩ := List.any_eq_true.mp hq
  have := h tr s hr t (List.mem_of_head? ht) _ _ _ _ _ hl "w1" k chunk1 _ hb hk hj hp
    (answer "one") (fun _ => 5) q hq
  rw [this] at hne
  simp [modelOr] at hne

theorem submitted_model_used : ∃ tr s k row, (system noText).Run tr s ∧
    s.pool.workers "w1" = some k ∧ k.job = "j" ∧ s.jobs.get "j" = some row ∧ row.model = "m" ∧
      ∀ client latencyMs, ∀ q ∈ chunkRequests k.settings [⟨1, "a", "hi", 1⟩] client latencyMs,
        q.model = row.model := by
  obtain ⟨⟨tr, s⟩, he, t, ht, hl, k, hb, hk, hj, hp, hs⟩ : ∃ p,
      LTS.exec (sysStep noText) (.init 0) (modelRun { oneWorker with llmModel := "m" }) = some p ∧
        ∃ t, p.1.head? = some t ∧ t.lbl = .submit 0 "j" "in.json" (some "m") oneWorker ∧ ∃ k hb,
          p.2.pool.workers "w1" = some k ∧ k.job = "j" ∧
            k.phase = .processing chunk1 [⟨1, "a", "hi", 1⟩] hb ∧ k.settings.llmModel = "m" :=
    ⟨_, rfl, _, rfl, rfl, _, _, rfl, rfl, rfl, rfl⟩
  have hr : (system noText).Run tr s := ⟨_, ⟨0, rfl⟩, LTS.path_of_exec he⟩
  obtain ⟨-, row, hrow, hm, hiff⟩ := submitted_model_iff hr (List.mem_of_head? ht) hl hk hj hp
  have hm : row.model = "m" := hm.trans (by simp [modelOr])
  exact ⟨tr, s, k, row, hr, hk, hj, hrow, hm, hiff.mpr (.inl (hs.trans hm.symm))⟩

end BatchSystem.Service
