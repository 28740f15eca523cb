import BatchSystem.Engine.Contents
import BatchSystem.Engine.Fencing

/-!
# Duplicate results

Every claim draws a new chunk id, so a row that is delivered again goes into a
second file. `Output` is what the store holds for a chunk, or may come to hold:
the records of its file, and the items of a running worker that has yet to
write them. If no claim delivers a row that is in the output of some chunk
(`FreshClaims`), the outputs stay disjoint (`outputs_reachable`) and no record
comes twice (`records_nodup`); `records_duplicated` is a crash between
`write_chunk` and `complete_items`.
-/
namespace BatchSystem.Engine

open BatchSystem.Core Domain Queue Storage PState

/-- The worker can still come to write its chunk. -/
def Worker.mayWrite (k : Worker) : Bool :=
  k.life = .running && match k.phase with
    | .processing _ _ (.sleeping _) | .writing .. => true
    | _ => false

/-- The external ids that chunk `cid` of the job has in the store, or may still
get there. -/
inductive Output (s : PState) (job : JobId) : ChunkId → List String → Prop
  | stored {f : ChunkFile} (hf : f ∈ s.files) (hj : f.jobId = job) :
      Output s job f.chunkId (storedIds f)
  | coming {w : WorkerId} {k : Worker} {cid : ChunkId} (hk : s.workers w = some k)
      (hw : k.mayWrite = true) (hj : k.job = job) (hc : k.phase.chunkId = some cid) :
      Output s job cid (k.phase.chunk.map (·.externalId))

/-- A claim returns no row that is in the output of a chunk. -/
def FreshClaims (s : PState) (l : Act) : Prop :=
  ∀ w cid chunk k, l = .claim w cid chunk → s.workers w = some k → ∀ c ∈ chunk, ∀ other ids,
    Output s k.job other ids → c.externalId ∉ ids

/-! ## Steps -/

section step
variable {s v : PState} {l : Act}

/-- A worker that may write could do so before, or has just claimed. -/
theorem mayWrite_next (hm : Move s l v) {x : WorkerId} {k' : Worker} (hx : v.workers x = some k')
    (hw : k'.mayWrite = true) : ∃ k, s.workers x = some k ∧ k'.job = k.job ∧
      ((k.mayWrite = true ∧ k'.phase.chunkId = k.phase.chunkId ∧
          k'.phase.chunk = k.phase.chunk) ∨
        ∃ cid chunk hb, l = .claim x cid chunk ∧ k'.phase = .processing cid chunk hb) := by
  cases turn_of_move hm hx with
  | same hk | writePart hk => exact ⟨_, hk, rfl, .inl ⟨hw, rfl, rfl⟩⟩
  | claim hk => exact ⟨_, hk, rfl, .inr ⟨_, _, _, rfl, rfl⟩⟩
  | renew hk hl hp | processed hk hl hp =>
    exact ⟨_, hk, rfl, .inl ⟨by simp [Worker.mayWrite, hl, hp], by rw [hp]; exact ⟨rfl, rfl⟩⟩⟩
  | start | leave | renewFails | dropped | written | complete | raise | crash =>
    simp [Worker.mayWrite] at hw

/-- Outputs grow by claims only. -/
theorem output_next (hr : pool.Reachable s) (hst : pool.step s l v) {job : JobId} {cid : ChunkId}
    {ids : List String} (h : Output v job cid ids) :
    (∃ ids₀, Output s job cid ids₀ ∧ ids ⊆ ids₀) ∨
    ∃ w k chunk, l = .claim w cid chunk ∧ s.workers w = some k ∧ k.job = job ∧
      ids = chunk.map (·.externalId) := by
  have hm := move_of_step hst
  cases h with
  | @stored f hf hj =>
    left
    rcases mem_files_next hm hf with hf | ⟨w, k, chunk, rs, hk, hl, hp, hjk, ht⟩
    · exact ⟨_, .stored hf hj, fun _ h => h⟩
    · -- a worker writes records of its items
      refine ⟨_, .coming hk (by simp [Worker.mayWrite, hl, hp]) (hjk.symm.trans hj)
        (by rw [hp]; rfl), ?_⟩
      obtain ⟨n, hn⟩ := (contents_of_results hr hk (by rw [hp]; rfl) hjk ht).read
      have hids := (((books_reachable hr).held w k hk).results rs (by rw [hp]; rfl)).1
      rw [storedIds, hn, ← hids]
      exact List.map_subset _ (List.take_subset n rs)
  | @coming w k' cid hk' hw hj hc =>
    obtain ⟨k, hk, hjk, ⟨hw₀, h1, h2⟩ | ⟨cid', chunk, hb, hl, hp⟩⟩ := mayWrite_next hm hk' hw
    · left
      refine ⟨_, .coming hk hw₀ (hjk.symm.trans hj) (h1.symm.trans hc), ?_⟩
      rw [h2]; exact fun _ h => h
    · right
      rw [hp] at hc ⊢
      cases hc
      exact ⟨w, k, chunk, hl, hk, hjk.symm.trans hj, rfl⟩

end step

/-! ## Runs -/

/-- The outputs of two chunks of a job have no external id in common. -/
def OutputsDisjoint (s : PState) : Prop :=
  ∀ job c₁ c₂ i₁ i₂, Output s job c₁ i₁ → Output s job c₂ i₂ → c₁ ≠ c₂ → ∀ x ∈ i₁, x ∉ i₂

theorem outputs_reachable {s : PState} (h : (pool.restrict FreshClaims).Reachable s) :
    OutputsDisjoint s := by
  refine h.induct (I := OutputsDisjoint) ?_ fun s l v hr hi hst => ?_
  · rintro _ ⟨now, rfl⟩ job c₁ c₂ i₁ i₂ h₁
    cases h₁ with
    | stored hf => cases hf
    | coming hk => cases hk
  · intro job c₁ c₂ i₁ i₂ h₁ h₂ hne x hx₁ hx₂
    have hr' := hr.of_restrict
    rcases output_next hr' hst.1 h₁ with ⟨j₁, o₁, hs₁⟩ | ⟨w, k, chunk, hl, hk, rfl, rfl⟩ <;>
      rcases output_next hr' hst.1 h₂ with ⟨j₂, o₂, hs₂⟩ | ⟨w', k', chunk', hl', hk', hj', rfl⟩
    · exact hi job c₁ c₂ j₁ j₂ o₁ o₂ hne x (hs₁ hx₁) (hs₂ hx₂)
    · -- the claim returned a row of the first output
      obtain ⟨c, hc, rfl⟩ := List.mem_map.mp hx₂
      exact hst.2 w' c₂ chunk' k' hl' hk' c hc c₁ j₁ (hj' ▸ o₁) (hs₁ hx₁)
    · obtain ⟨c, hc, rfl⟩ := List.mem_map.mp hx₁
      exact hst.2 w c₁ chunk k hl hk c hc c₂ j₂ o₂ (hs₂ hx₂)
    · rw [hl] at hl'; cases hl'
      exact hne rfl

/-! ## Headline -/

/-- **No duplicate results**, in every run whose claims return no row that a
chunk file already has a record of, or that a running worker has yet to write. -/
theorem records_nodup {s : PState} (h : (pool.restrict FreshClaims).Reachable s) (job : JobId) :
    ((iterResults s.files job).1.map (·.externalId)).Nodup := by
  have hr := h.of_restrict
  have hd := outputs_reachable h
  refine List.Nodup.sublist ((readFiles_sublist _).map _) ?_
  rw [List.map_flatMap, List.nodup_flatMap]
  constructor
  · intro f hf
    obtain ⟨rs, hc⟩ := contents_reachable hr f (mem_listChunks.mp hf).1
    exact storedIds_nodup hc
  · refine (listChunks_pairwise (books_reachable hr).fileIds job).imp_of_mem ?_
    intro f g hf hg hne x hxf hxg
    obtain ⟨hf, hfj⟩ := mem_listChunks.mp hf
    obtain ⟨hg, hgj⟩ := mem_listChunks.mp hg
    exact hd job _ _ _ _ (.stored hf hfj) (.stored hg hgj) hne x hxf hxg

/-! ## Non-vacuity -/

/-- `w1` dies after `write_chunk` and before `complete_items`. -/
def crashAfterWrite : List Act :=
  [.bulkInsert "j" [⟨"a", "hi"⟩] [], .start ["w1"] "j" {}, .claim "w1" chunk1 [⟨1, "a", "hi", 1⟩],
    .processed "w1" (answer "one") (fun _ => 5), .written "w1", .crash ["w1"], .tick 120000001,
    .start ["w2"] "j" {}, .claim "w2" chunk2 [⟨1, "a", "hi", 2⟩],
    .processed "w2" (answer "two") (fun _ => 5), .written "w2"]

/-- What a worker with default settings makes of an answer to row `a`. -/
def recordA (text : String) : ResultRecord := ⟨"a", .succeeded, some text, none, 1, some 5⟩

/-- The two files of `crashAfterWrite` hold one record each for one row. -/
theorem records_duplicated : ¬ ∀ s, pool.Reachable s → ∀ job,
    ((iterResults s.files job).1.map (·.externalId)).Nodup := by
  intro h
  obtain ⟨⟨tr, s⟩, he, hf⟩ : ∃ p, LTS.exec step (.init 0) crashAfterWrite = some p ∧
      p.2.files = [wholeFile "j" chunk1 [recordA "one"], wholeFile "j" chunk2 [recordA "two"]] :=
    ⟨_, rfl, rfl⟩
  have hn := h s ⟨tr, _, ⟨0, rfl⟩, LTS.path_of_exec he⟩ "j"
  have hl : listChunks s.files "j" = s.files := by rw [hf]; rfl
  have h1 := readFile_whole "j" chunk1 (by decide : ∀ r ∈ [recordA "one"], Clean r)
  have h2 := readFile_whole "j" chunk2 (by decide : ∀ r ∈ [recordA "two"], Clean r)
  rw [iterResults, hl, hf] at hn
  simp only [readFiles, h1, h2] at hn
  exact absurd hn (by decide)

/-- `w1` dies before it writes, and `w2` gets its row. -/
def crashBeforeWrite : List Act :=
  [.bulkInsert "j" [⟨"a", "hi"⟩] [], .start ["w1"] "j" {}, .claim "w1" chunk1 [⟨1, "a", "hi", 1⟩],
    .crash ["w1"], .tick 120000001, .start ["w2"] "j" {}, .claim "w2" chunk2 [⟨1, "a", "hi", 2⟩],
    .processed "w2" (answer "two") (fun _ => 5), .written "w2"]

/-- No file yet, and no worker of `ws` that may write one. -/
def idle (ws : List WorkerId) (s : PState) : Bool :=
  s.files.isEmpty && ws.all fun w => (s.workers w).all fun k => !k.mayWrite

/-- A claim is made while the workers are idle. -/
def claimsIdle (ws : List WorkerId) (t : Trans PState Act) : Bool :=
  match t.lbl with
  | .claim .. => idle ws t.pre
  | _ => true

theorem freshClaims_of_idle {t : Trans PState Act} {ws : List WorkerId}
    (hws : ∀ w k, t.pre.workers w = some k → w ∈ ws) (h : claimsIdle ws t = true) :
    FreshClaims t.pre t.lbl := by
  intro w cid chunk k hl _ _ _ _ _ ho
  rw [claimsIdle, hl] at h
  simp only [idle, Bool.and_eq_true, List.isEmpty_iff, List.all_eq_true] at h
  cases ho with
  | stored hf => rw [h.1] at hf; cases hf
  | coming hk hm =>
    have := h.2 _ (hws _ _ hk)
    rw [hk, Option.all_some, hm] at this; cases this

theorem records_nodup_crash : ∃ s, (pool.restrict FreshClaims).Reachable s ∧ s.files ≠ [] ∧
    ((iterResults s.files "j").1.map (·.externalId)).Nodup := by
  obtain ⟨⟨tr, s⟩, he, hs, hq⟩ : ∃ p, LTS.exec step (.init 0) crashBeforeWrite = some p ∧
      p.2.files ≠ [] ∧ ∀ t ∈ p.1, claimsIdle (started p.1) t = true :=
    ⟨_, rfl, nofun, by decide +kernel⟩
  have hr : (pool.restrict FreshClaims).Run tr s :=
    restrict_of_started ⟨_, ⟨0, rfl⟩, LTS.path_of_exec he⟩ fun t ht hws =>
      freshClaims_of_idle hws (hq t ht)
  exact ⟨s, hr.reachable, hs, records_nodup hr.reachable "j"⟩

end BatchSystem.Engine
