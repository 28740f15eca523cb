import BatchSystem.Service.Report

/-!
# Downloads while workers write

`stream_results` step by step, among the steps of the system: the job is looked
up, the chunk files are listed, each is read as it is at that moment, and its
records are yielded. A file that is being written, or whose writer died, shows
any prefix of its contents.

* `DTurn`, `turn_of_step`: what each step makes of one download, once.
* `calls_run`: every file is a cut of what one `write_chunk` call was given.
* `download_wellFormed_iff`: the bytes of a download form one JSON array of
  records that were passed to `write_chunk` exactly if every file was readable
  when it was read.
* `download_alone`: a download that nothing interrupts is `streamResults`.
-/
namespace BatchSystem.Service

open BatchSystem.Core BatchSystem.Core.Json Domain Queue Storage Engine Ingest

/-- What ends a download early. -/
inductive StreamError where
  | fileNotFound
  | read (e : ReadError)
  deriving DecidableEq, Repr

/-- The await at which a download stands.
mirrors app/infrastructure/storage/local_storage.py:46-53 -/
inductive ReadPc where
  | listing
  | reading (rest : List ChunkId)
  | done
  | failed (e : StreamError)
  deriving DecidableEq

def ReadPc.ended : ReadPc → Bool
  | .done | .failed _ => true
  | .listing | .reading _ => false

/-- Behind a file the next one is read, unless the reading raised. -/
def ReadPc.after (rest : List ChunkId) : Option ReadError → ReadPc
  | none => .reading rest
  | some e => .failed (.read e)

theorem ReadPc.after_ne_done (rest : List ChunkId) (e : Option ReadError) :
    ReadPc.after rest e ≠ .done := by
  cases e <;> simp [ReadPc.after]

theorem ReadPc.after_reading {rest rest' : List ChunkId} {e : Option ReadError}
    (h : ReadPc.after rest e = .reading rest') : rest' = rest := by
  cases e with
  | none =>
    cases h
    rfl
  | some e => cases h

theorem ReadPc.after_failed {rest : List ChunkId} {e : Option ReadError} :
    (∃ err, ReadPc.after rest e = .failed err) ↔ e ≠ none := by
  cases e <;> simp [ReadPc.after]

/-- One call of `stream_results`, with the pieces that it has yielded.
mirrors app/services/job_service.py:121-130 -/
structure Download where
  job : JobId
  pc : ReadPc := .listing
  first : Bool := true
  pieces : List (List Char) := [['[']]
  deriving DecidableEq

/-- `{job}/chunks/{chunkId}.jsonl` -/
def fileAt (files : List ChunkFile) (job : JobId) (chunkId : ChunkId) : Option ChunkFile :=
  files.find? fun f => f.jobId = job ∧ f.chunkId = chunkId

namespace Download

/-- mirrors app/infrastructure/storage/local_storage.py:41-46 -/
def list (d : Download) (files : List ChunkFile) : Download :=
  { d with pc := .reading ((listChunks files d.job).map ChunkFile.chunkId) }

/-- mirrors app/services/job_service.py:127-129 -/
def yield (d : Download) (rs : List ResultRecord) : Download :=
  { d with first := d.first && rs.isEmpty, pieces := d.pieces ++ streamRecords d.first rs }

/-- mirrors app/infrastructure/storage/local_storage.py:47-53 -/
def readNext (d : Download) (files : List ChunkFile) (chunkId : ChunkId) (rest : List ChunkId) :
    Download :=
  match fileAt files d.job chunkId with
  | none => { d with pc := .failed .fileNotFound }
  | some f => { d.yield (readFile f).1 with pc := .after rest (readFile f).2 }

/-- mirrors app/services/job_service.py:130 -/
def close (d : Download) : Download := { d with pc := .done, pieces := d.pieces ++ [[']']] }

end Download

structure DState where
  sys : SState
  downloads : Nat → Option Download

inductive DAct where
  | system (a : SAct)
  | request (i : Nat) (job : JobId)
  | list (i : Nat)
  | read (i : Nat)
  | close (i : Nat)

def DState.init (now : Int) : DState := ⟨.init now, fun _ => none⟩

def DState.setDownload (s : DState) (i : Nat) (d : Download) : DState :=
  { s with downloads := fun j => if j = i then some d else s.downloads j }

section system
variable (text : Json → String)

/-- A job that does not exist is refused before the first byte. -/
def downStep (s : DState) : DAct → Option DState
  | .system a => (sysStep text s.sys a).map fun sys => { s with sys }
  | .request i job =>
    if s.downloads i = none ∧ (s.sys.jobs.get job).isSome = true then
      some (s.setDownload i { job })
    else none
  | .list i =>
    (s.downloads i).bind fun d => match d.pc with
      | .listing => some (s.setDownload i (d.list s.sys.pool.files))
      | _ => none
  | .read i =>
    (s.downloads i).bind fun d => match d.pc with
      | .reading (chunkId :: rest) =>
        some (s.setDownload i (d.readNext s.sys.pool.files chunkId rest))
      | _ => none
  | .close i =>
    (s.downloads i).bind fun d => match d.pc with
      | .reading [] => some (s.setDownload i d.close)
      | _ => none

def downloading : LTS DState DAct := LTS.ofFn (fun s => ∃ now, s = .init now) (downStep text)

/-! ## What a step requires and does -/

/-- What a step makes of download `i`. -/
inductive DTurn (s : DState) (i : Nat) : DAct → Option Download → Prop
  | same {l : DAct} {o : Option Download} (h : l ≠ .read i) (ho : o = s.downloads i) :
      DTurn s i l o
  | request {job : JobId} (hn : s.downloads i = none) :
      DTurn s i (.request i job) (some { job })
  | list {d : Download} (hd : s.downloads i = some d) (hp : d.pc = .listing) :
      DTurn s i (.list i) (some (d.list s.sys.pool.files))
  | read {d : Download} {chunkId : ChunkId} {rest : List ChunkId} (hd : s.downloads i = some d)
      (hp : d.pc = .reading (chunkId :: rest)) :
      DTurn s i (.read i) (some (d.readNext s.sys.pool.files chunkId rest))
  | close {d : Download} (hd : s.downloads i = some d) (hp : d.pc = .reading []) :
      DTurn s i (.close i) (some d.close)

/-- The step of the system, if it is one. -/
def sysAct (_ : DState) : DAct → Option SAct
  | .system a => some a
  | _ => none

variable {text} {s v : DState} {l : DAct}

theorem setDownload_same (i : Nat) (d : Download) : (s.setDownload i d).downloads i = some d :=
  if_pos rfl

theorem setDownload_ne {i j : Nat} (h : i ≠ j) (d : Download) :
    (s.setDownload j d).downloads i = s.downloads i := if_neg h

/-- A step that writes download `j` is the turn of `j` and leaves the others. -/
theorem turn_set {i j : Nat} {d : Download} (own : DTurn s j l (some d))
    (hl : i ≠ j → l ≠ .read i) : DTurn s i l ((s.setDownload j d).downloads i) := by
  by_cases hij : i = j
  · subst hij
    rw [setDownload_same]
    exact own
  · rw [setDownload_ne hij]
    exact .same (hl hij) rfl

theorem turn_of_step (h : downStep text s l = some v) (i : Nat) :
    DTurn s i l (v.downloads i) := by
  cases l with
  | system a =>
    obtain ⟨sys, -, rfl⟩ := Option.map_eq_some_iff.mp h
    exact .same (by simp) rfl
  | request j job =>
    simp only [downStep, Option.ite_none_right_eq_some, Option.some.injEq] at h
    obtain ⟨⟨hn, -⟩, rfl⟩ := h
    exact turn_set (.request hn) (by simp)
  | list j =>
    simp only [downStep, Option.bind_eq_some_iff] at h
    obtain ⟨d, hd, h⟩ := h
    split at h
    · rename_i hp
      cases h
      exact turn_set (.list hd hp) (by simp)
    · cases h
  | read j =>
    simp only [downStep, Option.bind_eq_some_iff] at h
    obtain ⟨d, hd, h⟩ := h
    split at h
    · rename_i hp
      cases h
      refine turn_set (.read hd hp) fun hij he => hij ?_
      exact (DAct.read.inj he).symm
    · cases h
  | close j =>
    simp only [downStep, Option.bind_eq_some_iff] at h
    obtain ⟨d, hd, h⟩ := h
    split at h
    · rename_i hp
      cases h
      exact turn_set (.close hd hp) (by simp)
    · cases h

/-- **Downloads do not disturb the system.** -/
theorem downloading_refines : (downloading text).Refines (system text) DState.sys sysAct := by
  refine ⟨?_, fun s l v _ hst => ?_⟩
  · intro s hs
    obtain ⟨now, rfl⟩ := hs
    exact ⟨now, rfl⟩
  · cases l with
    | system a =>
      obtain ⟨sys, hs, rfl⟩ := Option.map_eq_some_iff.mp hst
      exact hs
    | request j job =>
      simp only [downloading, LTS.ofFn, downStep, Option.ite_none_right_eq_some,
        Option.some.injEq] at hst
      obtain ⟨-, rfl⟩ := hst
      rfl
    | list j | read j | close j =>
      simp only [downloading, LTS.ofFn, downStep, Option.bind_eq_some_iff] at hst
      obtain ⟨d, -, hst⟩ := hst
      split at hst
      · cases hst
        rfl
      · cases hst

end system

/-! ## What was passed to `write_chunk` -/

/-- The `write_chunk` call with which a worker ends its computation. -/
def writeCall (t : Trans PState Act) : Option WriteCall :=
  match t.lbl with
  | .processed w client latencyMs => (t.pre.workers w).bind fun k => match k.phase with
    | .processing chunkId chunk (.sleeping _) =>
      some ⟨k.job, chunkId, processChunk k.settings chunk client latencyMs⟩
    | _ => none
  | _ => none

def writeCalls (tr : List (Trans PState Act)) : List WriteCall := tr.filterMap writeCall

/-- The history of the worker pool. -/
def poolTrace (tr : List (Trans DState DAct)) : List (Trans PState Act) :=
  (tr.filterMap (LTS.mapTrans DState.sys sysAct)).filterMap (LTS.mapTrans SState.pool poolAct)

theorem writeCalls_mono (tr tr' : List (Trans PState Act)) :
    writeCalls tr ⊆ writeCalls (tr ++ tr') := by
  rw [writeCalls, writeCalls, List.filterMap_append]
  exact List.subset_append_left _ _

/-- What the workers hold, and what the files were cut from, are the records of
calls. -/
structure Called (tr : List (Trans PState Act)) (s : PState) : Prop where
  held : ∀ w k, s.workers w = some k → ∀ rs, k.phase.results = some rs →
    ∃ c ∈ writeCalls tr, c.jobId = k.job ∧ c.records = rs
  file : ∀ f ∈ s.files, ∃ c ∈ writeCalls tr, c.jobId = f.jobId ∧ Contents s f c.records

section calls
variable {s v : PState} {l : Act} {tr : List (Trans PState Act)}

theorem called_step (hr : pool.Reachable s) (h : Called tr s) (hst : pool.step s l v) :
    Called (tr ++ [⟨s, l, v⟩]) v := by
  have hm := move_of_step hst
  constructor
  · intro w k' hk' rs hrs
    rcases results_next hm hk' hrs with ⟨k, hk, hres, hj, -⟩ |
      ⟨k, cid, chunk, wake, client, latencyMs, rfl, hk, hp, rfl⟩
    · obtain ⟨c, hc, hcj, hcr⟩ := h.held w k hk rs hres
      exact ⟨c, writeCalls_mono _ _ hc, hcj.trans hj.symm, hcr⟩
    · -- this is the call
      cases hrs
      refine ⟨⟨k.job, cid, processChunk k.settings chunk client latencyMs⟩, ?_, rfl, rfl⟩
      rw [writeCalls, List.filterMap_append]
      refine List.mem_append_right _ (List.mem_filterMap.mpr ⟨_, List.mem_singleton_self _, ?_⟩)
      simp only [writeCall, hk, Option.bind_some, hp]
  · intro f hf
    rcases mem_files_next hm hf with hf | ⟨w, k, chunk, rs, hk, -, hp, hj, ht⟩
    · obtain ⟨c, hc, hcj, hcont⟩ := h.file f hf
      exact ⟨c, writeCalls_mono _ _ hc, hcj, hcont.step hr hst⟩
    · have hrs : k.phase.results = some rs := by
        rw [hp]
        rfl
      obtain ⟨c, hc, hcj, rfl⟩ := h.held w k hk rs hrs
      exact ⟨c, writeCalls_mono _ _ hc, hcj.trans hj.symm,
        (contents_of_results hr hk hrs hj ht).step hr hst⟩

theorem calls_run (h : pool.Run tr s) : Called tr s := by
  refine h.induct (P := Called) ?_ fun tr s l v hr hi hst => called_step hr.reachable hi hst
  intro s hs
  obtain ⟨now, rfl⟩ := hs
  constructor
  · intro w k hk
    cases hk
  · intro f hf
    cases hf

/-- A file stays, under its name. -/
theorem file_stays (hm : Move s l v) {f : ChunkFile} (hf : f ∈ s.files) :
    ∃ g ∈ v.files, g.jobId = f.jobId ∧ g.chunkId = f.chunkId := by
  have put : ∀ g : ChunkFile,
      ∃ g' ∈ putFile s.files g, g'.jobId = f.jobId ∧ g'.chunkId = f.chunkId := by
    intro g
    by_cases h : f.jobId = g.jobId ∧ f.chunkId = g.chunkId
    · exact ⟨g, putFile_self, h.1.symm, h.2.symm⟩
    · exact ⟨f, putFile_other hf h, rfl, rfl⟩
  cases hm with
  | writePart | written => exact put _
  | tick | bulkInsert | start | leave | claim | renew | renewFails | processed | dropped | complete
  | raise | crash => exact ⟨f, hf, rfl, rfl⟩

end calls

/-! ## One download -/

section download
variable {text : Json → String} {tr : List (Trans DState DAct)} {s v : DState} {l : DAct}

theorem poolTrace_run (h : (downloading text).Run tr s) : pool.Run (poolTrace tr) s.sys.pool :=
  system_refines.run (downloading_refines.run h)

theorem poolTrace_snoc (tr : List (Trans DState DAct)) (t : Trans DState DAct) :
    writeCalls (poolTrace tr) ⊆ writeCalls (poolTrace (tr ++ [t])) := by
  unfold poolTrace
  rw [List.filterMap_append, List.filterMap_append]
  exact writeCalls_mono _ _

/-- The record was passed to a `write_chunk` call of the job. -/
def Passed (tr : List (Trans DState DAct)) (job : JobId) (r : ResultRecord) : Prop :=
  ∃ c ∈ writeCalls (poolTrace tr), c.jobId = job ∧ r ∈ c.records

/-- The bytes of the download are one JSON array of such records. -/
def WellFormed (tr : List (Trans DState DAct)) (d : Download) : Prop :=
  ∃ rs : List ResultRecord, loads d.pieces.flatten = some (.arr (rs.map recordJson)) ∧ ∀ r ∈ rs, Passed tr d.job r

/-- The transition is the one in which download `i` reads `f`. -/
def Reads (t : Trans DState DAct) (i : Nat) (f : ChunkFile) : Prop :=
  t.lbl = .read i ∧ ∃ d chunkId rest, t.pre.downloads i = some d ∧
    d.pc = .reading (chunkId :: rest) ∧ fileAt t.pre.sys.pool.files d.job chunkId = some f

/-- Every file was readable when download `i` read it. -/
def AllReadable (tr : List (Trans DState DAct)) (i : Nat) : Prop :=
  ∀ t ∈ tr, ∀ f, Reads t i f → Readable f

theorem passed_snoc {job : JobId} {r : ResultRecord} (h : Passed tr job r)
    (t : Trans DState DAct) : Passed (tr ++ [t]) job r := by
  obtain ⟨c, hc, hcj, hr⟩ := h
  exact ⟨c, poolTrace_snoc tr t hc, hcj, hr⟩

theorem allReadable_snoc {t : Trans DState DAct} {i : Nat} :
    AllReadable (tr ++ [t]) i ↔ AllReadable tr i ∧ ∀ f, Reads t i f → Readable f := by
  unfold AllReadable
  rw [List.forall_mem_append, List.forall_mem_singleton]

theorem allReadable_other {t : Trans DState DAct} {i : Nat} (h : t.lbl ≠ .read i) :
    AllReadable (tr ++ [t]) i ↔ AllReadable tr i := by
  rw [allReadable_snoc]
  exact and_iff_left fun f hf => absurd hf.1 h

/-- The records that a download has yielded. -/
structure Streamed (tr : List (Trans DState DAct)) (d : Download) (rs : List ResultRecord) :
    Prop where
  pieces : d.pieces = ['['] :: streamRecords true rs ++ if d.pc = .done then [[']']] else []
  first : d.first = rs.isEmpty
  passed : ∀ r ∈ rs, Passed tr d.job r

variable {d : Download} {rs : List ResultRecord}

theorem Streamed.snoc (h : Streamed tr d rs) (t : Trans DState DAct) :
    Streamed (tr ++ [t]) d rs :=
  ⟨h.pieces, h.first, fun r hr => passed_snoc (h.passed r hr) t⟩

/-- Before the end only the records were yielded. -/
theorem Streamed.open (h : Streamed tr d rs) (hp : d.pc ≠ .done) :
    d.pieces = ['['] :: streamRecords true rs := by
  rw [h.pieces, if_neg hp, List.append_nil]

theorem Streamed.yield (h : Streamed tr d rs) (hp : d.pc ≠ .done) {qs : List ResultRecord}
    (hq : ∀ r ∈ qs, Passed tr d.job r) {pc : ReadPc} (hpc : pc ≠ .done) :
    Streamed tr { d.yield qs with pc } (rs ++ qs) := by
  refine ⟨?_, ?_, ?_⟩
  · simp only [Download.yield, h.open hp, h.first, if_neg hpc, List.append_nil,
      streamRecords_append, Bool.true_and, List.cons_append]
  · simp only [Download.yield, h.first]
    cases rs <;> rfl
  · intro r hr
    rcases List.mem_append.mp hr with hr | hr
    · exact h.passed r hr
    · exact hq r hr

/-- What is known of a download: what it yielded, that the files it still has
to read exist, and why it failed. -/
structure Followed (tr : List (Trans DState DAct)) (s : DState) (i : Nat) (d : Download) :
    Prop where
  streamed : ∃ rs, Streamed tr d rs
  listed : ∀ rest, d.pc = .reading rest → ∀ chunkId ∈ rest,
    ∃ f ∈ s.sys.pool.files, f.jobId = d.job ∧ f.chunkId = chunkId
  failed : (∃ e, d.pc = .failed e) ↔ ¬ AllReadable tr i

/-- A download that was not requested has read nothing. -/
structure FollowedAt (tr : List (Trans DState DAct)) (s : DState) (i : Nat) : Prop where
  unopened : s.downloads i = none → AllReadable tr i
  opened : ∀ d, s.downloads i = some d → Followed tr s i d

theorem fileAt_some {files : List ChunkFile} {job : JobId} {chunkId : ChunkId}
    (h : ∃ f ∈ files, f.jobId = job ∧ f.chunkId = chunkId) :
    ∃ f, fileAt files job chunkId = some f ∧ f ∈ files ∧ f.jobId = job ∧ f.chunkId = chunkId := by
  obtain ⟨g, hg, hn⟩ := h
  obtain ⟨f, hf⟩ : ∃ f, fileAt files job chunkId = some f :=
    Option.isSome_iff_exists.mp (List.find?_isSome.mpr ⟨g, hg, decide_eq_true hn⟩)
  exact ⟨f, hf, List.mem_of_find?_eq_some hf, of_decide_eq_true (List.find?_some hf :)⟩

/-- One file more, or the end. -/
theorem Followed.read (hr : (downloading text).Run tr s) {i : Nat} (h : Followed tr s i d)
    (hd : s.downloads i = some d) {chunkId : ChunkId} {rest : List ChunkId}
    (hp : d.pc = .reading (chunkId :: rest)) :
    Followed (tr ++ [⟨s, .read i, v⟩]) s i (d.readNext s.sys.pool.files chunkId rest) := by
  obtain ⟨f, hf, hmem, hj, -⟩ := fileAt_some (h.listed _ hp chunkId List.mem_cons_self)
  obtain ⟨c, hc, hcj, hcont⟩ := (calls_run (poolTrace_run hr)).file f hmem
  have hnd : d.pc ≠ .done := by
    rw [hp]
    simp
  have hall : AllReadable tr i := by
    by_contra hn
    obtain ⟨e, he⟩ := h.failed.mpr hn
    rw [hp] at he
    cases he
  have hnext : AllReadable (tr ++ [⟨s, .read i, v⟩]) i ↔ Readable f := by
    rw [allReadable_snoc]
    refine ⟨fun hx => hx.2 f ⟨rfl, d, chunkId, rest, hd, hp, hf⟩, fun hx => ⟨hall, ?_⟩⟩
    intro g hg
    obtain ⟨-, d', cid', rest', hd', hp', hg⟩ := hg
    obtain rfl := Option.some.inj (hd'.symm.trans hd)
    obtain ⟨rfl, -⟩ := List.cons.inj (ReadPc.reading.inj (hp'.symm.trans hp))
    obtain rfl := Option.some.inj (hg.symm.trans hf)
    exact hx
  have hpassed : ∀ r ∈ (readFile f).1, Passed (tr ++ [⟨s, .read i, v⟩]) d.job r := by
    obtain ⟨n, hn⟩ := hcont.read
    intro r hmr
    rw [hn] at hmr
    exact passed_snoc ⟨c, hc, hcj.trans hj, List.mem_of_mem_take hmr⟩ _
  obtain ⟨rs, hs⟩ := h.streamed
  have hs' := hs.snoc ⟨s, .read i, v⟩
  rw [readable_iff hcont] at hnext
  simp only [Download.readNext, hf]
  refine ⟨⟨_, hs'.yield hnd hpassed (ReadPc.after_ne_done _ _)⟩, fun rest' hp' cid hcid => ?_, ?_⟩
  · obtain rfl := ReadPc.after_reading hp'
    exact h.listed _ hp cid (List.mem_cons_of_mem _ hcid)
  · rw [hnext]
    exact ReadPc.after_failed

/-- The files that a download has listed stay. -/
theorem Followed.stays (hr : (downloading text).Run tr s) (hst : (downloading text).step s l v)
    {i : Nat} {hist : List (Trans DState DAct)} (h : Followed hist s i d) :
    Followed hist v i d := by
  refine ⟨h.streamed, fun rest hp cid hc => ?_, h.failed⟩
  obtain ⟨f, hf, hj, hcid⟩ := h.listed rest hp cid hc
  have hsys := downloading_refines.step s l v hr.reachable hst
  cases hl : sysAct s l with
  | none =>
    rw [hl] at hsys
    rw [hsys]
    exact ⟨f, hf, hj, hcid⟩
  | some a =>
    rw [hl] at hsys
    have hpool := system_refines.step _ a _ (downloading_refines.reachable hr.reachable) hsys
    cases ha : poolAct s.sys a with
    | none =>
      rw [ha] at hpool
      rw [hpool]
      exact ⟨f, hf, hj, hcid⟩
    | some b =>
      rw [ha] at hpool
      obtain ⟨g, hg, hgj, hgc⟩ := file_stays (move_of_step hpool) hf
      exact ⟨g, hg, hgj.trans hj, hgc.trans hcid⟩

theorem Followed.list {i : Nat} (h : Followed tr s i d) (hp : d.pc = .listing) :
    Followed (tr ++ [⟨s, .list i, v⟩]) s i (d.list s.sys.pool.files) := by
  obtain ⟨rs, hs⟩ := h.streamed
  have hs' := hs.snoc ⟨s, .list i, v⟩
  refine ⟨⟨rs, ?_, hs'.first, hs'.passed⟩, fun rest hl cid hc => ?_, ?_⟩
  · exact (hs'.open (by simp [hp])).trans (List.append_nil _).symm
  · cases hl
    obtain ⟨f, hf, rfl⟩ := List.mem_map.mp hc
    obtain ⟨hf, hj⟩ := mem_listChunks.mp hf
    exact ⟨f, hf, hj, rfl⟩
  · rw [allReadable_other (by simp), ← h.failed]
    simp [Download.list, hp]

theorem Followed.close {i : Nat} (h : Followed tr s i d) (hp : d.pc = .reading []) :
    Followed (tr ++ [⟨s, .close i, v⟩]) s i d.close := by
  obtain ⟨rs, hs⟩ := h.streamed
  have hs' := hs.snoc ⟨s, .close i, v⟩
  refine ⟨⟨rs, ?_, hs'.first, hs'.passed⟩, by rintro rest ⟨⟩, ?_⟩
  · rw [Download.close, hs'.open (by simp [hp])]
    rfl
  · rw [allReadable_other (by simp), ← h.failed]
    simp [Download.close, hp]

theorem followed_step (hr : (downloading text).Run tr s) {i : Nat} (h : FollowedAt tr s i)
    (hst : (downloading text).step s l v) : FollowedAt (tr ++ [⟨s, l, v⟩]) v i := by
  have ht := turn_of_step hst i
  constructor
  · intro hn
    rw [hn] at ht
    cases ht with
    | same hl ho => exact (allReadable_other hl).mpr (h.unopened ho.symm)
  · intro d hd
    suffices hf : Followed (tr ++ [⟨s, l, v⟩]) s i d from hf.stays hr hst
    rw [hd] at ht
    cases ht with
    | same hl ho =>
      have hf := h.opened d ho.symm
      obtain ⟨rs, hs⟩ := hf.streamed
      refine ⟨⟨rs, hs.snoc _⟩, hf.listed, ?_⟩
      rw [hf.failed, allReadable_other hl]
    | request hn =>
      refine ⟨⟨[], rfl, rfl, by simp⟩, by simp, ?_⟩
      rw [allReadable_other (by simp)]
      simp [h.unopened hn]
    | list hd' hp => exact (h.opened _ hd').list hp
    | read hd' hp => exact (h.opened _ hd').read hr hd' hp
    | close hd' hp => exact (h.opened _ hd').close hp

theorem followed_run (h : (downloading text).Run tr s) (i : Nat) : FollowedAt tr s i := by
  refine h.induct (P := fun tr s => FollowedAt tr s i) ?_ fun tr s l v hr hi hst =>
    followed_step hr hi hst
  intro s hs
  obtain ⟨now, rfl⟩ := hs
  constructor
  · intro _ t ht
    cases ht
  · intro d hd
    cases hd

/-! ## Headline -/

/-- **A download is well formed**, whatever the workers do meanwhile and
wherever they died, exactly if every file it read was readable at that moment. -/
theorem download_wellFormed_iff (h : (downloading text).Run tr s) {i : Nat}
    (hd : s.downloads i = some d) (he : d.pc.ended = true) :
    WellFormed tr d ↔ AllReadable tr i := by
  have hf := (followed_run h i).opened d hd
  obtain ⟨rs, hs⟩ := hf.streamed
  cases hp : d.pc with
  | listing | reading =>
    rw [hp] at he
    cases he
  | done =>
    have hall : AllReadable tr i := by
      by_contra hn
      obtain ⟨e, hfail⟩ := hf.failed.mpr hn
      rw [hp] at hfail
      cases hfail
    have hwell : WellFormed tr d := by
      refine ⟨rs, ?_, hs.passed⟩
      rw [hs.pieces, if_pos hp]
      exact loads_stream rs
    exact iff_of_true hwell hall
  | failed e =>
    refine iff_of_false ?_ (hf.failed.mp ⟨e, hp⟩)
    -- the closing bracket was never sent
    intro hwell
    obtain ⟨qs, hl, -⟩ := hwell
    rw [hs.open (by simp [hp]), loads_stream_cut] at hl
    cases hl

/-! ## Without interruption -/

/-- The error of the reading, if it raised one. -/
def ReadPc.error : ReadPc → Option ReadError
  | .failed (.read e) => some e
  | _ => none

theorem readFiles_next {f : ChunkFile} {fs : List ChunkFile} (h : (readFile f).2 = none) :
    readFiles (f :: fs) = ((readFile f).1 ++ (readFiles fs).1, (readFiles fs).2) := by
  rw [readFiles]
  cases hf : readFile f with
  | mk rs e =>
    rw [hf] at h
    cases h
    rfl

theorem readFiles_stop {f : ChunkFile} {fs : List ChunkFile} {e : ReadError}
    (h : (readFile f).2 = some e) : readFiles (f :: fs) = ((readFile f).1, some e) := by
  rw [readFiles]
  cases hf : readFile f with
  | mk rs e' =>
    rw [hf] at h
    cases h
    rfl

variable (text) in
/-- The rest of a download, in a system that stands still. -/
theorem reads_alone {i : Nat} (fs : List ChunkFile) (hd : s.downloads i = some d)
    (hp : d.pc = .reading (fs.map ChunkFile.chunkId))
    (hfs : ∀ f ∈ fs, fileAt s.sys.pool.files d.job f.chunkId = some f) :
    ∃ tr v d', (downloading text).Path s tr v ∧ (∀ t ∈ tr, sysAct t.pre t.lbl = none) ∧
      v.downloads i = some d' ∧ d'.pc.ended = true ∧ d'.pc.error = (readFiles fs).2 ∧
      d'.pieces = d.pieces ++ streamRecords d.first (readFiles fs).1 ++
        if (readFiles fs).2 = none then [[']']] else [] := by
  induction fs generalizing s d with
  | nil =>
    have hst : (downloading text).step s (.close i) (s.setDownload i d.close) := by
      simp only [downloading, LTS.ofFn, downStep, hd, Option.bind_some, hp, List.map_nil]
    refine ⟨_, _, d.close, .single hst, by simp [sysAct], setDownload_same _ _, rfl, rfl, ?_⟩
    simp [Download.close, readFiles, streamRecords]
  | cons f fs ih =>
    obtain ⟨hf, hfs⟩ := List.forall_mem_cons.mp hfs
    have hst : (downloading text).step s (.read i) (s.setDownload i
        { d.yield (readFile f).1 with pc := .after (fs.map ChunkFile.chunkId) (readFile f).2 }) := by
      simp only [downloading, LTS.ofFn, downStep, hd, Option.bind_some, hp, List.map_cons,
        Download.readNext, hf]
    cases he : (readFile f).2 with
    | none =>
      rw [he] at hst
      obtain ⟨tr, v, d', hpath, hlbl, hd', hend, herr, hpieces⟩ :=
        ih (setDownload_same i { d.yield (readFile f).1 with
          pc := .after (fs.map ChunkFile.chunkId) none }) rfl hfs
      refine ⟨_, v, d', .cons hst hpath, ?_, hd', hend, ?_, ?_⟩
      · exact List.forall_mem_cons.mpr ⟨rfl, hlbl⟩
      · rw [herr, readFiles_next he]
      · rw [hpieces, readFiles_next he]
        simp [Download.yield, streamRecords_append]
    | some e =>
      rw [he] at hst
      refine ⟨_, _, _, .single hst, by simp [sysAct], setDownload_same _ _, rfl, ?_, ?_⟩
      · rw [readFiles_stop he]
        rfl
      · rw [readFiles_stop he]
        simp [Download.yield]

/-- **A download that nothing interrupts** sends what `streamResults` returns. -/
theorem download_alone (h : (downloading text).Reachable s) {i : Nat} {job : JobId}
    (hi : s.downloads i = none) (hj : (s.sys.jobs.get job).isSome = true) :
    ∃ tr v d, (downloading text).Path s tr v ∧ (∀ t ∈ tr, sysAct t.pre t.lbl = none) ∧
      v.downloads i = some d ∧ d.pc.ended = true ∧
      streamResults s.sys.jobs s.sys.pool.files job = .ok (d.pieces, d.pc.error) := by
  have hbooks := books_reachable (pool_reachable (downloading_refines.reachable h))
  have hreq : (downloading text).step s (.request i job) (s.setDownload i { job }) :=
    if_pos ⟨hi, hj⟩
  have hlist : (downloading text).step (s.setDownload i { job }) (.list i)
      ((s.setDownload i { job }).setDownload i (Download.list { job } s.sys.pool.files)) := by
    simp only [downloading, LTS.ofFn, downStep, setDownload_same, Option.bind_some]
    rfl
  have hfs : ∀ f ∈ listChunks s.sys.pool.files job,
      fileAt s.sys.pool.files job f.chunkId = some f := by
    intro f hf
    obtain ⟨hf, hfj⟩ := mem_listChunks.mp hf
    obtain ⟨g, hg, hgm, -, hgc⟩ := fileAt_some ⟨f, hf, hfj, rfl⟩
    rw [hg, List.inj_on_of_nodup_map hbooks.fileIds hgm hf hgc]
  have hd : ((s.setDownload i { job }).setDownload i
      (Download.list { job } s.sys.pool.files)).downloads i =
        some (Download.list { job } s.sys.pool.files) := setDownload_same _ _
  obtain ⟨tr, v, d, hpath, hlbl, hd, hend, herr, hpieces⟩ := reads_alone text _ hd rfl hfs
  refine ⟨_, v, d, .cons hreq (.cons hlist hpath), ?_, hd, hend, ?_⟩
  · exact List.forall_mem_cons.mpr ⟨rfl, List.forall_mem_cons.mpr ⟨rfl, hlbl⟩⟩
  · obtain ⟨row, hrow⟩ := Option.isSome_iff_exists.mp hj
    rw [streamResults, hrow, herr, hpieces, iterResults]
    cases readFiles (listChunks s.sys.pool.files job) with
    | mk rs e => cases e <;> simp [Download.list]

end download

/-! ## Non-vacuity -/

/-- `w1` has computed its one row. -/
def computed : List SAct :=
  [.submit 0 "j" "in.json" none oneWorker, .setIngesting 0 fileA, .flush 0, .setTotal 0,
    .setRunning 0, .engineStart 0 ["w1"], .worker (.claim "w1" chunk1 [⟨1, "a", "hi", 1⟩]),
    .worker (.processed "w1" (answer "one") (fun _ => 5))]

/-- The process dies in the middle of the record, and a download begins. -/
def tornRun : List DAct :=
  computed.map .system ++ [.system (.worker (.writePart "w1" 10 false)), .system (.crash [0]),
    .request 0 "j", .list 0, .read 0]

/-- The file is listed when it is empty and read when it is whole. -/
def filledRun : List DAct :=
  computed.map .system ++ [.system (.worker (.writePart "w1" 0 false)), .request 0 "j", .list 0,
    .system (.worker (.written "w1")), .read 0, .close 0]

/-- The download ends behind its first bracket. -/
theorem download_torn : ¬ ∀ tr s, (downloading noText).Run tr s → ∀ i d,
    s.downloads i = some d → d.pc.ended = true → WellFormed tr d := by
  intro h
  obtain ⟨⟨tr, s⟩, he, hp⟩ := (Option.any_eq_true _ _).mp (by decide +kernel :
    (LTS.exec (downStep noText) (.init 0) tornRun).any (fun p => (p.2.downloads 0).any fun d =>
      d.pc.ended ∧ loads d.pieces.flatten = none) = true)
  obtain ⟨d, hd, hq⟩ := (Option.any_eq_true _ _).mp hp
  obtain ⟨hend, hl⟩ := of_decide_eq_true hq
  obtain ⟨rs, hrs, -⟩ := h tr s ⟨_, ⟨0, rfl⟩, LTS.path_of_exec he⟩ 0 d hd hend
  rw [hl] at hrs
  cases hrs

/-- The download has the record. -/
theorem download_wellFormed_filled : ∃ tr s d, (downloading noText).Run tr s ∧
    s.downloads 0 = some d ∧ d.pieces.length = 3 ∧ AllReadable tr 0 ∧ WellFormed tr d := by
  obtain ⟨⟨tr, s⟩, he, hp⟩ := (Option.any_eq_true _ _).mp (by decide +kernel :
    (LTS.exec (downStep noText) (.init 0) filledRun).any (fun p => (p.2.downloads 0).any fun d =>
      d.pc = .done ∧ d.pieces.length = 3) = true)
  have hr : (downloading noText).Run tr s := ⟨_, ⟨0, rfl⟩, LTS.path_of_exec he⟩
  obtain ⟨d, hd, hq⟩ := (Option.any_eq_true _ _).mp hp
  obtain ⟨hdone, hlen⟩ := of_decide_eq_true hq
  have hall : AllReadable tr 0 := by
    by_contra hn
    obtain ⟨e, hfail⟩ := ((followed_run hr 0).opened d hd).failed.mpr hn
    rw [hdone] at hfail
    cases hfail
  have hend : d.pc.ended = true := by
    rw [hdone]
    rfl
  exact ⟨tr, s, d, hr, hd, hlen, hall, (download_wellFormed_iff hr hd hend).mpr hall⟩

end BatchSystem.Service
