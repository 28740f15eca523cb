import BatchSystem.Engine.Owner

/-!
# What the chunk files hold

A chunk file is a cut of the lines of the records that one worker computed for
its chunk: their external ids are distinct, and each is that of a claimed row of
the file's job (`contents_reachable`). So a reader finds the first records of
that list (`Contents.read`), and `iter_results` yields a part of what its files
hold (`readFiles_sublist`).
-/
namespace BatchSystem.Engine

open BatchSystem.Core Domain Queue Storage PState

/-- What `f` was cut from. -/
structure Contents (s : PState) (f : ChunkFile) (rs : List ResultRecord) : Prop where
  text : f.text <+: lines rs
  distinct : (rs.map (·.externalId)).Nodup
  rows : ∀ res ∈ rs, ∃ r ∈ s.items.rows, r.jobId = f.jobId ∧ r.externalId = res.externalId ∧
    r.workerId ≠ none

theorem Contents.read {s : PState} {f : ChunkFile} {rs : List ResultRecord} (h : Contents s f rs) :
    ∃ k, (readFile f).1 = rs.take k := by
  unfold readFile
  split
  · exact ⟨0, rfl⟩
  · exact (readText_cut h.text).1

theorem readFile_whole (job : JobId) (cid : ChunkId) {rs : List ResultRecord}
    (h : ∀ r ∈ rs, Clean r) : readFile (wholeFile job cid rs) = (rs, none) := by
  show readText (payload rs) = _
  rcases readText_payload rs with ⟨-, he⟩ | ⟨⟨r, hr, hn⟩, -⟩
  · exact he
  · exact absurd (h r hr) hn

/-! ## Chunks -/

/-- The items of a chunk have distinct external ids: they stand for distinct
rows of one job. -/
theorem chunk_externalIds_nodup {s : PState} (hr : pool.Reachable s) {w : WorkerId} {k : Worker}
    (hk : s.workers w = some k) : (k.phase.chunk.map (·.externalId)).Nodup := by
  have hi := owners_reachable hr
  have hn := hi.nodup w k hk
  refine List.Nodup.map_on (fun c hc d hd he => ?_) (List.Nodup.of_map _ hn)
  obtain ⟨r, hr₁, h1, h2, h3, -⟩ := hi.stands w k hk c hc
  obtain ⟨q, hq, e1, e2, e3, -⟩ := hi.stands w k hk d hd
  have hrq := s.items.key_inj hr₁ hq (h2.trans e2.symm) (h3.trans (he.trans e3.symm))
  exact List.inj_on_of_nodup_map hn hc hd (h1.symm.trans ((congrArg ItemRow.id hrq).trans e1))

/-- What a worker writes. -/
theorem contents_of_results {s : PState} (hr : pool.Reachable s) {w : WorkerId} {k : Worker}
    (hk : s.workers w = some k) {rs : List ResultRecord} (hrs : k.phase.results = some rs)
    {f : ChunkFile} (hj : f.jobId = k.job) (ht : f.text <+: payload rs) : Contents s f rs := by
  have hh := (books_reachable hr).held w k hk
  have hids := (hh.results rs hrs).1
  have hne : rs ≠ [] := by
    rintro rfl
    have hcid : ∃ cid, k.phase.chunkId = some cid := by
      cases hp : k.phase with
      | claiming | processing => rw [hp] at hrs; cases hrs
      | writing cid | completing cid => exact ⟨cid, rfl⟩
    obtain ⟨cid, hcid⟩ := hcid
    exact hh.nonempty cid hcid (List.map_eq_nil_iff.mp hids.symm)
  refine ⟨payload_eq_lines hne ▸ ht, hids ▸ chunk_externalIds_nodup hr hk, fun res hres => ?_⟩
  have hm : res.externalId ∈ k.phase.chunk.map (·.externalId) := hids ▸ List.mem_map_of_mem hres
  obtain ⟨c, hc, he⟩ := List.mem_map.mp hm
  obtain ⟨r, hrow, -, h2, h3, -, h5⟩ := (owners_reachable hr).stands w k hk c hc
  exact ⟨r, hrow, h2.trans hj.symm, h3.trans he, h5⟩

/-! ## Steps -/

section step
variable {s v : PState} {l : Act}

/-- A file of the new state: an old one, or a part of what a running worker
has to write. -/
theorem mem_files_next (hm : Move s l v) {f : ChunkFile} (hf : f ∈ v.files) :
    f ∈ s.files ∨ ∃ w k chunk rs, s.workers w = some k ∧ k.life = .running ∧
      k.phase = .writing f.chunkId chunk rs ∧ f.jobId = k.job ∧ f.text <+: payload rs := by
  cases hm with
  | @writePart w k cid chunk rs n torn hk hl hp =>
    rcases mem_putFile hf with rfl | ⟨hf, -⟩
    · exact .inr ⟨w, k, chunk, rs, hk, hl, hp, rfl, List.take_prefix _ _⟩
    · exact .inl hf
  | @written w k cid chunk rs hk hl hp =>
    rcases mem_putFile hf with rfl | ⟨hf, -⟩
    · exact .inr ⟨w, k, chunk, rs, hk, hl, hp, rfl, List.prefix_refl _⟩
    · exact .inl hf
  | _ => exact .inl hf

theorem Contents.step (hr : pool.Reachable s) (hst : pool.step s l v) {f : ChunkFile}
    {rs : List ResultRecord} (h : Contents s f rs) : Contents v f rs := by
  refine ⟨h.text, h.distinct, fun res hres => ?_⟩
  obtain ⟨r, hrow, h1, h2, h3⟩ := h.rows res hres
  obtain ⟨-, k2, k3, -⟩ := rowNext_sameKey s l r
  exact ⟨_, rowNext_mem hr hst hrow, k2.trans h1, k3.trans h2, rowNext_worker h3⟩

end step

theorem contents_reachable {s : PState} (h : pool.Reachable s) :
    ∀ f ∈ s.files, ∃ rs, Contents s f rs := by
  refine h.induct (I := fun s => ∀ f ∈ s.files, ∃ rs, Contents s f rs) ?_ ?_
  · rintro _ ⟨now, rfl⟩ f hf
    cases hf
  · intro s l v hr hi hst f hf
    rcases mem_files_next (move_of_step hst) hf with hf | ⟨w, k, chunk, rs, hk, -, hp, hj, ht⟩
    · obtain ⟨rs, hc⟩ := hi f hf
      exact ⟨rs, hc.step hr hst⟩
    · exact ⟨rs, (contents_of_results hr hk (by rw [hp]; rfl) hj ht).step hr hst⟩

/-! ## Reading -/

/-- The external ids that a reader finds in the file. -/
def storedIds (f : ChunkFile) : List String := (readFile f).1.map (·.externalId)

theorem storedIds_nodup {s : PState} {f : ChunkFile} {rs : List ResultRecord}
    (h : Contents s f rs) : (storedIds f).Nodup := by
  obtain ⟨k, hk⟩ := h.read
  rw [storedIds, hk]
  exact h.distinct.sublist ((List.take_sublist k rs).map _)

/-- `iter_results` stops at the first error. -/
theorem readFiles_sublist (fs : List ChunkFile) :
    (readFiles fs).1.Sublist (fs.flatMap fun f => (readFile f).1) := by
  induction fs with
  | nil => exact .slnil
  | cons f fs ih =>
    rw [readFiles, List.flatMap_cons]
    cases hf : readFile f with
    | mk rs e =>
      cases e with
      | none => exact ih.append_left rs
      | some e => exact List.sublist_append_left rs _

theorem mem_listChunks {files : List ChunkFile} {job : JobId} {f : ChunkFile} :
    f ∈ listChunks files job ↔ f ∈ files ∧ f.jobId = job := by
  rw [listChunks, List.mem_insertionSort, List.mem_filter, decide_eq_true_eq]

/-- The files of a job have distinct chunk ids. -/
theorem listChunks_pairwise {files : List ChunkFile} (h : (files.map ChunkFile.chunkId).Nodup)
    (job : JobId) : (listChunks files job).Pairwise fun f g => f.chunkId ≠ g.chunkId := by
  have hp := List.perm_insertionSort (fun f g => fileName f.chunkId ≤ fileName g.chunkId)
    (files.filter fun f => f.jobId = job)
  refine (hp.pairwise_iff (R := fun f g => f.chunkId ≠ g.chunkId) fun h => Ne.symm h).mpr ?_
  exact (List.pairwise_map.mp h).sublist List.filter_sublist

end BatchSystem.Engine
