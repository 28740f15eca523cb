import BatchSystem.Service.JobRepository
import BatchSystem.Storage.LocalStorage

/-!
# `JobService.stream_results`

The download is the records of `iter_results` as one JSON array.

* `loads_stream`, `loads_stream_cut`: a stream that was not cut short parses as
  the array of the records, and one that was parses as nothing.
* `roundTrips_iff`: after any sequence of `write_chunk` calls the records of a
  job come back from the storage and from the download exactly if none of them
  holds U+0085, U+2028 or U+2029.
-/
namespace BatchSystem.Service

open BatchSystem.Core BatchSystem.Core.Json Domain Storage

structure JobNotFoundError where
  job : JobId
  deriving DecidableEq, Repr

/-- mirrors app/services/job_service.py:127-129 -/
def streamRecords : Bool → List ResultRecord → List (List Char)
  | _, [] => []
  | first, r :: rs =>
    ((if first then [] else [',']) ++ modelDumpJson r) :: streamRecords false rs

/-- The pieces that were yielded and the error that ended the stream.
mirrors app/services/job_service.py:121-130 -/
def streamResults (jobs : Jobs) (files : List ChunkFile) (job : JobId) :
    Except JobNotFoundError (List (List Char) × Option ReadError) :=
  match jobs.get job with
  | none => .error ⟨job⟩
  | some _ => match iterResults files job with
    | (rs, none) => .ok (['['] :: (streamRecords true rs ++ [[']']]), none)
    | (rs, some e) => .ok (['['] :: streamRecords true rs, some e)

theorem streamRecords_rest (rs : List ResultRecord) : (streamRecords false rs).flatten ++ [']'] =
    if rs = [] then [']'] else ',' :: dumpElems (rs.map recordJson) := by
  induction rs with
  | nil => rfl
  | cons r rs ih =>
    rw [streamRecords, List.flatten_cons, List.append_assoc, ih, List.map_cons, dumpElems_cons]
    simp [modelDumpJson]

/-- The pieces of a whole stream make up one array. -/
theorem stream_flatten (rs : List ResultRecord) :
    (['['] :: (streamRecords true rs ++ [[']']])).flatten = dump (.arr (rs.map recordJson)) := by
  cases rs with
  | nil => rfl
  | cons r rs =>
    have h := streamRecords_rest rs
    rw [List.map_cons, dump, dumpElems_cons]
    simp only [streamRecords, List.flatten_cons, List.flatten_append, if_true, List.nil_append,
      List.flatten_nil, List.append_nil, List.cons_append, h, List.map_eq_nil_iff]
    rfl

theorem records_wf (rs : List ResultRecord) : WF (.arr (rs.map recordJson)) := by
  induction rs with
  | nil => trivial
  | cons r rs ih => exact ⟨recordJson_wf r, ih⟩

theorem loads_stream (rs : List ResultRecord) :
    loads (['['] :: (streamRecords true rs ++ [[']']])).flatten = some (.arr (rs.map recordJson)) := by
  rw [stream_flatten]
  exact loads_dump (records_wf rs)

/-- A stream that was cut short is no JSON text. -/
theorem loads_stream_cut (rs : List ResultRecord) :
    loads (['['] :: streamRecords true rs).flatten = none := by
  have h := stream_flatten rs
  rw [← List.cons_append, List.flatten_append] at h
  exact loads_prefix_arr (records_wf rs) h (by simp)

theorem streamRecords_append (first : Bool) (rs qs : List ResultRecord) :
    streamRecords first (rs ++ qs) =
      streamRecords first rs ++ streamRecords (first && rs.isEmpty) qs := by
  induction rs generalizing first with
  | nil => simp [streamRecords]
  | cons r rs ih => simp [streamRecords, ih]

/-! ## Round trip -/

/-- The arguments of one `write_chunk`. -/
structure WriteCall where
  jobId : JobId
  chunkId : ChunkId
  records : List ResultRecord

def WriteCall.file (c : WriteCall) : ChunkFile :=
  { jobId := c.jobId, chunkId := c.chunkId, text := payload c.records }

/-- The store after the calls. -/
def writeAll (calls : List WriteCall) : List ChunkFile :=
  calls.foldl (fun files c => (writeChunk files c.jobId c.chunkId c.records).1) []

/-- The calls for a job in file-name order. -/
def callsOf (calls : List WriteCall) (job : JobId) : List WriteCall :=
  (calls.filter fun c => c.jobId = job).insertionSort fun c d =>
    fileName c.chunkId ≤ fileName d.chunkId

/-- Storage and download both give exactly `rs`. -/
structure RoundTrips (jobs : Jobs) (files : List ChunkFile) (job : JobId)
    (rs : List ResultRecord) : Prop where
  iterated : iterResults files job = (rs, none)
  streamed : ∃ pieces vs, streamResults jobs files job = .ok (pieces, none) ∧
    loads pieces.flatten = some (.arr vs) ∧ vs.map ofJson = rs.map .ok

/-- With fresh chunk ids every call adds its file. -/
theorem foldl_writeChunk {calls : List WriteCall} {files : List ChunkFile}
    (hd : (calls.map WriteCall.chunkId).Nodup)
    (hf : ∀ f ∈ files, ∀ c ∈ calls, f.chunkId ≠ c.chunkId) :
    calls.foldl (fun files c => (writeChunk files c.jobId c.chunkId c.records).1) files =
      files ++ calls.map WriteCall.file := by
  induction calls generalizing files with
  | nil => simp
  | cons c calls ih =>
    rw [List.map_cons, List.nodup_cons] at hd
    have hnew : (writeChunk files c.jobId c.chunkId c.records).1 = files ++ [c.file] := by
      refine if_neg fun h => ?_
      obtain ⟨f, hm, he⟩ := List.any_eq_true.mp h
      exact hf f hm c List.mem_cons_self (of_decide_eq_true he).2
    rw [List.foldl_cons, hnew, ih hd.2]
    · simp
    · intro f hm d hdm
      rcases List.mem_append.mp hm with hm | hm
      · exact hf f hm d (List.mem_cons_of_mem _ hdm)
      · obtain rfl := List.mem_singleton.mp hm
        exact fun he => hd.1 (List.mem_map.mpr ⟨d, hdm, he.symm⟩)

theorem listChunks_writeAll {calls : List WriteCall} (hd : (calls.map WriteCall.chunkId).Nodup)
    (job : JobId) : listChunks (writeAll calls) job = (callsOf calls job).map WriteCall.file := by
  have hsort := List.map_insertionSort (fun c d : WriteCall => fileName c.chunkId ≤ fileName d.chunkId)
    (fun f g : ChunkFile => fileName f.chunkId ≤ fileName g.chunkId) WriteCall.file
    (calls.filter fun c => c.jobId = job) fun _ _ _ _ => Iff.rfl
  rw [callsOf, hsort, writeAll, foldl_writeChunk hd (by simp), List.nil_append, listChunks,
    List.filter_map]
  rfl

theorem mem_callsOf {calls : List WriteCall} {job : JobId} {c : WriteCall} :
    c ∈ callsOf calls job ↔ c ∈ calls ∧ c.jobId = job := by
  rw [callsOf, List.mem_insertionSort, List.mem_filter, decide_eq_true_eq]

theorem readFiles_payloads (calls : List WriteCall) :
    readFiles (calls.map WriteCall.file) = (calls.flatMap WriteCall.records, none) ↔
      ∀ c ∈ calls, ∀ r ∈ c.records, Clean r := by
  induction calls with
  | nil => simp [readFiles]
  | cons c calls ih =>
    have hread : readFile c.file = readText (payload c.records) := rfl
    rw [List.map_cons, readFiles, List.forall_mem_cons, ← ih, hread]
    rcases readText_payload c.records with ⟨hc, he⟩ | ⟨⟨r, hr, hnc⟩, he⟩
    · rw [he]
      simp only [List.flatMap_cons, Prod.ext_iff, List.append_cancel_left_eq]
      exact ⟨fun h => ⟨hc, h⟩, fun h => h.2⟩
    · cases hf : readText (payload c.records) with
      | mk rs e =>
        cases e with
        | none => rw [hf] at he; exact absurd rfl he
        | some e =>
          constructor
          · intro h; cases (Prod.ext_iff.mp h).2
          · intro h; exact absurd (h.1 r hr) hnc

/-- **Storage and download round trip**, exactly when no string field of a
record of the job holds U+0085, U+2028 or U+2029. -/
theorem roundTrips_iff {calls : List WriteCall} (hd : (calls.map WriteCall.chunkId).Nodup)
    {jobs : Jobs} {job : JobId} (hj : (jobs.get job).isSome = true) :
    RoundTrips jobs (writeAll calls) job ((callsOf calls job).flatMap WriteCall.records) ↔
      ∀ c ∈ calls, c.jobId = job → ∀ r ∈ c.records, Clean r := by
  have hiter : iterResults (writeAll calls) job =
      ((callsOf calls job).flatMap WriteCall.records, none) ↔
        ∀ c ∈ calls, c.jobId = job → ∀ r ∈ c.records, Clean r := by
    rw [iterResults, listChunks_writeAll hd, readFiles_payloads]
    exact ⟨fun h c hc hcj => h c (mem_callsOf.mpr ⟨hc, hcj⟩),
      fun h c hc => h c (mem_callsOf.mp hc).1 (mem_callsOf.mp hc).2⟩
  constructor
  · exact fun h => hiter.mp h.iterated
  · intro h
    obtain ⟨row, hrow⟩ := Option.isSome_iff_exists.mp hj
    have he := hiter.mpr h
    refine ⟨he, _, _, by rw [streamResults, hrow, he], loads_stream _, ?_⟩
    rw [List.map_map]
    exact List.map_congr_left fun r _ => ofJson_recordJson r

/-! ## Non-vacuity -/

def jobsJ : Jobs := ⟨[⟨"j", .running, "in.json", "m", 0, none⟩], by decide⟩

def chunkA : ChunkId := ⟨"a", by simp⟩
def chunkB : ChunkId := ⟨"b", by simp⟩

/-- Two chunks, written in the other order than their names. -/
def twoCalls : List WriteCall :=
  [⟨"j", chunkB, [⟨"2", .failed, none, some "é\n\"", 3, none⟩]⟩,
    ⟨"j", chunkA, [⟨"1", .succeeded, some "ok", none, 1, some 7⟩]⟩]

theorem roundTrips_two : RoundTrips jobsJ (writeAll twoCalls) "j"
    [⟨"1", .succeeded, some "ok", none, 1, some 7⟩, ⟨"2", .failed, none, some "é\n\"", 3, none⟩] := by
  have he : (callsOf twoCalls "j").flatMap WriteCall.records =
      [⟨"1", .succeeded, some "ok", none, 1, some 7⟩,
        ⟨"2", .failed, none, some "é\n\"", 3, none⟩] := by decide
  rw [← he]
  exact (roundTrips_iff (by decide) (by decide)).mpr (by decide)

/-- One response that holds U+2028. -/
def separatorCall : WriteCall :=
  ⟨"j", chunkA, [⟨"1", .succeeded, some "a\u2028b", none, 1, none⟩]⟩

/-- The reading of the file raises. -/
theorem roundTrips_separator : ¬ ∀ (calls : List WriteCall),
    (calls.map WriteCall.chunkId).Nodup → ∀ (jobs : Jobs) (job : JobId),
      (jobs.get job).isSome = true →
      RoundTrips jobs (writeAll calls) job ((callsOf calls job).flatMap WriteCall.records) := by
  intro h
  have hr := (h [separatorCall] (by decide) jobsJ "j" (by decide)).iterated
  have hl : listChunks (writeAll [separatorCall]) "j" = [separatorCall.file] := rfl
  have hbad : ¬ ∀ c ∈ [separatorCall], ∀ r ∈ c.records, Clean r := by decide
  rw [iterResults, hl] at hr
  exact hbad ((readFiles_payloads [separatorCall]).mp hr)

end BatchSystem.Service
