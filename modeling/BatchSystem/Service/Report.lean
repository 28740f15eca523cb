import BatchSystem.Engine.Contents
import BatchSystem.Engine.Durable
import BatchSystem.Service.Completion
import BatchSystem.Service.Download

/-!
# What the download reports

The download reads the chunk files only. A row that a worker finished has its
record there (`Engine.durable_reachable`); a row that ingestion inserted as
FAILED has no result, no owner and no record (`unstored_reachable`). So the
download of a job is complete exactly if ingestion rejected nothing and every
chunk file reads to its end (`reported_iff`).
-/
namespace BatchSystem.Service

open BatchSystem.Core BatchSystem.Core.Json Domain Queue Storage Engine Ingest

/-- Inserted as FAILED: no result was ever stored. -/
def Rejected (r : ItemRow) : Prop := r.status = .failed ∧ r.resultRef = none

/-- A reader of the file reaches its end. -/
def Readable (f : ChunkFile) : Prop := f.torn = false ∧ Sound f.text

/-- The download is an array with a record for every finished row. -/
def Reported (s : SState) (job : JobId) : Prop :=
  ∃ (pieces : List (List Char)) (rs : List ResultRecord),
    streamResults s.jobs s.pool.files job = .ok (pieces, none) ∧
    loads pieces.flatten = some (.arr (rs.map recordJson)) ∧
    ∀ r ∈ s.pool.items.rows, r.jobId = job → r.status.terminal = true →
      ∃ res ∈ rs, res.externalId = r.externalId ∧ res.status = r.status

/-! ## Rows without a result -/

theorem unstored_reachable {s : PState} (h : pool.Reachable s) :
    ∀ r ∈ s.items.rows, r.status.terminal = true → r.resultRef = none →
      r.status = .failed ∧ r.workerId = none := by
  refine h.induct (I := fun s => ∀ r ∈ s.items.rows, r.status.terminal = true →
    r.resultRef = none → r.status = .failed ∧ r.workerId = none) ?_ ?_
  · rintro _ ⟨now, rfl⟩ r hr; cases hr
  · intro s l v hr hi hst r' hr' ht hn
    rcases (mem_next hr hst).mp hr' with ⟨r, hrow, rfl⟩ | hnew
    · rcases rowNext_cases s l r with ⟨hterm, href⟩ | ⟨_, _, _, _, _, _, _, _, _, _, _, _, _, hfin⟩
      · rw [hterm] at ht
        rw [href] at hn
        rw [rowNext_terminal s l ht]
        exact hi r hrow ht hn
      · rw [hfin] at hn; cases hn
    · have hu := rowsNew_unclaimed hnew
      rcases hu.status with hp | hf
      · rw [hp] at ht; cases ht
      · exact ⟨hf, hu.workerId⟩

/-! ## Files -/

theorem readFiles_ok {fs : List ChunkFile} :
    (readFiles fs).2 = none ↔ ∀ f ∈ fs, (readFile f).2 = none := by
  induction fs with
  | nil => simp [readFiles]
  | cons f fs ih =>
    rw [readFiles, List.forall_mem_cons, ← ih]
    cases hf : readFile f with
    | mk rs e =>
      cases e with
      | none => simp
      | some e => simp

theorem readFiles_all {fs : List ChunkFile} (h : ∀ f ∈ fs, (readFile f).2 = none) :
    (readFiles fs).1 = fs.flatMap fun f => (readFile f).1 := by
  induction fs with
  | nil => rfl
  | cons f fs ih =>
    obtain ⟨hf, hfs⟩ := List.forall_mem_cons.mp h
    rw [readFiles, List.flatMap_cons, ← ih hfs]
    cases hr : readFile f with
    | mk rs e =>
      rw [hr] at hf
      simp only at hf
      subst hf
      rfl

theorem readable_iff {s : PState} {f : ChunkFile} {rs : List ResultRecord}
    (h : Contents s f rs) : Readable f ↔ (readFile f).2 = none := by
  unfold Readable readFile
  split
  · rename_i ht; simp [ht]
  · rename_i ht
    rw [(readText_cut h.text).2]
    simp [ht]

/-- A whole file that reads to its end gives its records. -/
theorem readFile_stored {job : JobId} {cid : ChunkId} {rs : List ResultRecord}
    (h : (readFile (wholeFile job cid rs)).2 = none) : (readFile (wholeFile job cid rs)).1 = rs := by
  have he : readFile (wholeFile job cid rs) = readText (payload rs) := rfl
  rcases readText_payload rs with ⟨-, hr⟩ | ⟨-, hr⟩
  · rw [he, hr]
  · rw [he] at h; exact absurd h hr

/-! ## Headline -/

section report
variable {text : Json → String} {s : SState} {job : JobId}

/-- The stream of an existing job is the array of what `iter_results` yields. -/
theorem stream_iff (hj : (s.jobs.get job).isSome = true) {rs : List ResultRecord} :
    (∃ pieces, streamResults s.jobs s.pool.files job = .ok (pieces, none) ∧
      loads pieces.flatten = some (.arr (rs.map recordJson))) ↔
    iterResults s.pool.files job = (rs, none) := by
  obtain ⟨row, hrow⟩ := Option.isSome_iff_exists.mp hj
  cases hi : iterResults s.pool.files job with
  | mk qs e =>
    cases e with
    | some e =>
      constructor
      · rintro ⟨pieces, hs, -⟩
        rw [streamResults, hrow] at hs
        simp only [hi] at hs
        cases hs
      · intro h; cases h
    | none =>
      have hs : streamResults s.jobs s.pool.files job =
          .ok (['['] :: (streamRecords true qs ++ [[']']]), none) := by
        rw [streamResults, hrow]
        simp only [hi]
      constructor
      · rintro ⟨pieces, hp, hl⟩
        rw [hs] at hp
        cases hp
        rw [loads_stream] at hl
        simp only [Option.some.injEq, Json.arr.injEq] at hl
        have hinj : Function.Injective recordJson := by
          intro a b hab
          have := congrArg ofJson hab
          rw [ofJson_recordJson, ofJson_recordJson] at this
          cases this; rfl
        rw [List.map_injective_iff.mpr hinj hl]
      · intro h
        cases h
        exact ⟨_, hs, loads_stream _⟩

/-- A record of a row makes it a claimed row. -/
theorem not_rejected_of_reported (h : (system text).Reachable s)
    (hj : (s.jobs.get job).isSome = true) (hrep : Reported s job) :
    ∀ r ∈ s.pool.items.rows, r.jobId = job → ¬ Rejected r := by
  obtain ⟨pieces, rs, hs, hl, hrows⟩ := hrep
  have hreach := pool_reachable h
  have hit := (stream_iff hj).mp ⟨pieces, hs, hl⟩
  intro r hr hrj hrej
  obtain ⟨res, hres, hid, -⟩ := hrows r hr hrj (by rw [hrej.1]; rfl)
  have hmem : res ∈ (iterResults s.pool.files job).1 := by rw [hit]; exact hres
  obtain ⟨f, hf, hrf⟩ := List.mem_flatMap.mp ((readFiles_sublist _).mem hmem)
  obtain ⟨hf, hfj⟩ := mem_listChunks.mp hf
  obtain ⟨qs, hc⟩ := contents_reachable hreach f hf
  obtain ⟨n, hn⟩ := hc.read
  rw [hn] at hrf
  obtain ⟨q, hq, hqj, hqid, hqw⟩ := hc.rows res (List.mem_of_mem_take hrf)
  obtain rfl := s.pool.items.key_inj hq hr (hqj.trans (hfj.trans hrj.symm)) (hqid.trans hid)
  exact hqw (unstored_reachable hreach q hq (by rw [hrej.1]; rfl) hrej.2).2

theorem readable_all_iff (h : (system text).Reachable s) :
    (∀ f ∈ s.pool.files, f.jobId = job → Readable f) ↔
      (iterResults s.pool.files job).2 = none := by
  rw [iterResults, readFiles_ok]
  constructor
  · intro hall f hf
    obtain ⟨hf, hfj⟩ := mem_listChunks.mp hf
    obtain ⟨rs, hc⟩ := contents_reachable (pool_reachable h) f hf
    exact (readable_iff hc).mp (hall f hf hfj)
  · intro hall f hf hfj
    obtain ⟨rs, hc⟩ := contents_reachable (pool_reachable h) f hf
    exact (readable_iff hc).mpr (hall f (mem_listChunks.mpr ⟨hf, hfj⟩))

/-- A row with a result has its record in a file that reads to its end. -/
theorem record_of_result (h : (system text).Reachable s)
    (hok : (iterResults s.pool.files job).2 = none) {r : ItemRow} (hr : r ∈ s.pool.items.rows)
    (hrj : r.jobId = job) (href : r.resultRef ≠ none) :
    ∃ res ∈ (iterResults s.pool.files job).1, res.externalId = r.externalId ∧
      res.status = r.status := by
  obtain ⟨-, f, rs, res, hsealed, hst⟩ := durable_reachable (pool_reachable h) r hr href
  have hfj : f.jobId = job := by rw [hst.whole]; exact hrj
  have hmem : f ∈ listChunks s.pool.files job := mem_listChunks.mpr ⟨hsealed.mem, hfj⟩
  have hfok : (readFile f).2 = none := readFiles_ok.mp hok f hmem
  have hrs : (readFile f).1 = rs := by
    rw [hst.whole] at hfok ⊢
    exact readFile_stored hfok
  refine ⟨res, ?_, hst.agrees.externalId, hst.agrees.status⟩
  rw [iterResults, readFiles_all (readFiles_ok.mp hok)]
  exact List.mem_flatMap.mpr ⟨f, hmem, hrs ▸ hst.mem⟩

/-- **The download is complete**, of a COMPLETED job as of any other, exactly if
ingestion inserted no row as FAILED and every chunk file of the job reads to its
end. -/
theorem reported_iff (h : (system text).Reachable s) (hj : (s.jobs.get job).isSome = true) :
    Reported s job ↔ (∀ r ∈ s.pool.items.rows, r.jobId = job → ¬ Rejected r) ∧
      ∀ f ∈ s.pool.files, f.jobId = job → Readable f := by
  rw [readable_all_iff h]
  constructor
  · intro hrep
    refine ⟨not_rejected_of_reported h hj hrep, ?_⟩
    obtain ⟨pieces, rs, hs, hl, -⟩ := hrep
    rw [(stream_iff hj).mp ⟨pieces, hs, hl⟩]
  · rintro ⟨hrej, hok⟩
    obtain ⟨pieces, hs, hl⟩ := (stream_iff hj).mpr (Prod.ext rfl hok :
      iterResults s.pool.files job = ((iterResults s.pool.files job).1, none))
    refine ⟨pieces, _, hs, hl, fun r hr hrj ht => record_of_result h hok hr hrj fun hn => ?_⟩
    exact hrej r hr hrj ⟨(unstored_reachable (pool_reachable h) r hr ht hn).1, hn⟩

end report

/-! ## Non-vacuity -/

/-- A file with one element, which is not an object. -/
def rejectedRun : List SAct :=
  [.submit 0 "j" "in.json" none oneWorker, .setIngesting 0 [.null], .flush 0, .setTotal 0,
    .setRunning 0, .engineStart 0 ["w1"], .worker (.claim "w1" chunk1 []), .gathered 0,
    .setCompleted 0]

def completedIn (s : SState) (job : JobId) : Bool :=
  (s.jobs.get job).any fun row => row.state = .completed

/-- The row of the rejected element is in no download. -/
theorem reported_rejected : ¬ ∀ s, (system noText).Reachable s → ∀ job row,
    s.jobs.get job = some row → row.state = .completed → Reported s job := by
  intro h
  obtain ⟨⟨tr, s⟩, he, hp⟩ := (Option.any_eq_true _ _).mp (by decide +kernel :
    (LTS.exec (sysStep noText) (.init 0) rejectedRun).any (fun p => completedIn p.2 "j" &&
      p.2.pool.items.rows.any fun r =>
        r.jobId = "j" ∧ r.status = .failed ∧ r.resultRef = none) = true)
  rw [Bool.and_eq_true] at hp
  have hr : (system noText).Reachable s := ⟨tr, _, ⟨0, rfl⟩, LTS.path_of_exec he⟩
  obtain ⟨row, hrow, hst⟩ := (Option.any_eq_true _ _).mp hp.1
  obtain ⟨r, hm, hq⟩ := List.any_eq_true.mp hp.2
  obtain ⟨hrj, hrej⟩ := of_decide_eq_true hq
  exact not_rejected_of_reported hr (by rw [hrow]; rfl)
    (h s hr "j" row hrow (of_decide_eq_true hst)) r hm hrj hrej

/-- After `lateResume` the one row is in the download. -/
theorem reported_resumed : ∃ s, (system noText).Reachable s ∧ completedIn s "j" = true ∧
    Reported s "j" := by
  obtain ⟨⟨tr, s⟩, he, hj, hrows, hf⟩ : ∃ p, LTS.exec (sysStep noText) (.init 0)
        (lateResume ++ [.setCompleted 1]) = some p ∧ completedIn p.2 "j" = true ∧
      p.2.pool.items.rows.all (fun r => r.resultRef ≠ none) = true ∧
      p.2.pool.files = [wholeFile "j" chunk2 [⟨"a", .succeeded, some "two", none, 1, some 5⟩]] :=
    ⟨_, rfl, by decide +kernel, by decide +kernel, rfl⟩
  have hr : (system noText).Reachable s := ⟨tr, _, ⟨0, rfl⟩, LTS.path_of_exec he⟩
  have hsome : (s.jobs.get "j").isSome = true := by
    obtain ⟨row, hrow, -⟩ := (Option.any_eq_true _ _).mp hj
    rw [hrow]; rfl
  refine ⟨s, hr, hj, (reported_iff hr hsome).mpr ⟨fun r hm _ hrej => ?_, fun f hm _ => ?_⟩⟩
  · exact of_decide_eq_true (List.all_eq_true.mp hrows r hm) hrej.2
  · rw [hf] at hm
    obtain rfl := List.mem_singleton.mp hm
    refine ⟨rfl, [⟨"a", .succeeded, some "two", none, 1, some 5⟩], by decide, .inl ?_⟩
    exact payload_eq_lines (List.cons_ne_nil _ _)

end BatchSystem.Service
