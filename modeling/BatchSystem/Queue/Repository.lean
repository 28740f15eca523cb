import BatchSystem.Queue.Table

/-!
# `PgWorkQueueRepository`

The transactions of the durable queue as functions of the table and of the
transaction's `now()`. Here each runs atomically, one after the other: an
assumption, for claims that overlap under `FOR UPDATE SKIP LOCKED` skip each
other's rows (`SkipLocked` has the statements row by row).

For each UPDATE a lemma `..._rows` gives the new rows as a map of the old ones
(`claimChunk_rows`, `renewLease_rows`, `completeItems_rows`), and the callers
use only these.
-/
namespace BatchSystem.Queue

open BatchSystem.Core Domain PromptItems
open ItemRow (KeepsKey)

/-! ## `bulk_insert` -/

/-- mirrors app/infrastructure/db/repositories/work_queue_repository.py:64-72 -/
def pendingRow (job : JobId) (it : PromptItem) : ItemRow :=
  { id := 0, jobId := job, externalId := it.externalId, prompt := some it.prompt,
    status := .pending }

/-- `withError` says whether the statement has an `error` column.
mirrors app/infrastructure/db/repositories/work_queue_repository.py:73-82 -/
def failedRow (job : JobId) (withError : Bool) (fr : ResultRecord) : ItemRow :=
  { id := 0, jobId := job, externalId := fr.externalId, prompt := none, status := .failed,
    error := if withError then fr.error else none }

/-- The VALUES of the statement. Its column list is that of the first
dictionary, so `error` is a column only when no pending row comes first. -/
def insertRows (job : JobId) (items : List PromptItem) (failed : List ResultRecord) :
    List ItemRow :=
  items.map (pendingRow job) ++ failed.map (failedRow job items.isEmpty)

/-- mirrors app/infrastructure/db/repositories/work_queue_repository.py:60-91 -/
def bulkInsert (t : PromptItems) (job : JobId) (items : List PromptItem)
    (failed : List ResultRecord) : PromptItems × Nat :=
  if insertRows job items failed = [] then (t, 0) else t.insertIgnore (insertRows job items failed)

theorem bulkInsert_rows (t : PromptItems) (job : JobId) (items : List PromptItem)
    (failed : List ResultRecord) : (bulkInsert t job items failed).1.rows =
      t.rows ++ t.freshRows (insertRows job items failed) := by
  unfold bulkInsert
  split
  · rename_i h
    simp [h, freshRows, number, firstWins]
  · rfl

theorem bulkInsert_nextId (t : PromptItems) (job : JobId) (items : List PromptItem)
    (failed : List ResultRecord) : (bulkInsert t job items failed).1.nextId =
      t.nextId + (insertRows job items failed).length := by
  unfold bulkInsert
  split
  · rename_i h
    rw [h]
    rfl
  · rfl

theorem insertRows_job {job : JobId} {items : List PromptItem} {failed : List ResultRecord}
    {r : ItemRow} (h : r ∈ insertRows job items failed) : r.jobId = job := by
  simp only [insertRows, List.mem_append, List.mem_map] at h
  rcases h with ⟨_, _, rfl⟩ | ⟨_, _, rfl⟩ <;> rfl

/-- A row as `bulk_insert` writes it: never claimed, no result. -/
structure Unclaimed (r : ItemRow) : Prop where
  status : r.status = .pending ∨ r.status = .failed
  workerId : r.workerId = none
  leaseUntil : r.leaseUntil = none
  resultRef : r.resultRef = none
  attempts : r.attempts = 0

theorem insertRows_unclaimed {job : JobId} {items : List PromptItem}
    {failed : List ResultRecord} {r : ItemRow} (h : r ∈ insertRows job items failed) :
    Unclaimed r := by
  simp only [insertRows, List.mem_append, List.mem_map] at h
  rcases h with ⟨_, _, rfl⟩ | ⟨_, _, rfl⟩
  · exact ⟨.inl rfl, rfl, rfl, rfl, rfl⟩
  · exact ⟨.inr rfl, rfl, rfl, rfl, rfl⟩

/-- The rows a `bulk_insert` adds are unclaimed rows of its job. -/
theorem freshRows_unclaimed {t : PromptItems} {job : JobId} {items : List PromptItem}
    {failed : List ResultRecord} {r : ItemRow}
    (h : r ∈ t.freshRows (insertRows job items failed)) : r.jobId = job ∧ Unclaimed r := by
  obtain ⟨c, hc, he⟩ := fresh_of_mem t h
  have hj := insertRows_job hc
  have hu := insertRows_unclaimed hc
  rw [he]
  exact ⟨hj, hu.status, hu.workerId, hu.leaseUntil, hu.resultRef, hu.attempts⟩

/-! ## `claim_chunk` -/

/-- `lease_until < now()`; a null lease is not expired. -/
def leaseExpired (now : Int) (r : ItemRow) : Bool :=
  match r.leaseUntil with
  | some t => decide (t < now)
  | none => false

/-- The WHERE of `_CLAIM_SQL`.
mirrors app/infrastructure/db/repositories/work_queue_repository.py:21-23 -/
def claimable (job : JobId) (now : Int) (r : ItemRow) : Bool :=
  r.jobId == job && (r.status == .pending || (r.status == .claimed && leaseExpired now r))

/-- The CTE `claimed`: the first `size` claimable rows in id order. -/
def claimed (t : PromptItems) (job : JobId) (size : Nat) (now : Int) : List ItemRow :=
  (t.rows.filter (claimable job now)).take size

/-- mirrors app/infrastructure/db/repositories/work_queue_repository.py:28-35 -/
def claimRow (w : WorkerId) (lease : Int) (r : ItemRow) : ItemRow :=
  { r with status := .claimed, workerId := some w, leaseUntil := some lease,
           attempts := r.attempts + 1 }

theorem claimRow_keeps (w : WorkerId) (lease : Int) : KeepsKey (claimRow w lease) :=
  fun _ => ⟨rfl, rfl, rfl, rfl⟩

/-- RETURNING p.id, p.external_id, p.prompt, p.attempts.
mirrors app/infrastructure/db/repositories/work_queue_repository.py:106-114 -/
def claimedItem (r : ItemRow) : ClaimedItem :=
  { id := r.id, externalId := r.externalId, prompt := r.prompt.getD "", attempts := r.attempts + 1 }

/-- mirrors app/infrastructure/db/repositories/work_queue_repository.py:93-114 -/
def claimChunk (t : PromptItems) (now : Int) (job : JobId) (w : WorkerId) (size : Nat)
    (leaseSeconds : Int) : PromptItems × List ClaimedItem :=
  let rows := claimed t job size now
  ((t.update (fun r => (rows.map ItemRow.id).contains r.id)
      (claimRow w (now + makeInterval leaseSeconds)) (claimRow_keeps _ _)).1,
    rows.map claimedItem)

section claims
variable {t : PromptItems} {now : Int} {job : JobId} {w : WorkerId} {size : Nat}

theorem mem_claimed {r : ItemRow} (h : r ∈ claimed t job size now) :
    r ∈ t.rows ∧ claimable job now r = true := by
  have := List.mem_of_mem_take h
  exact List.mem_filter.mp this

/-- A claim comes back empty iff no row of the job is claimable. -/
theorem claimed_eq_nil (h : 1 ≤ size) :
    claimed t job size now = [] ↔ ∀ r ∈ t.rows, claimable job now r = false := by
  unfold claimed
  rw [List.take_eq_nil_iff]
  constructor
  · rintro (h0 | hf) r hr
    · omega
    · simpa using List.filter_eq_nil_iff.mp hf r hr
  · intro hf
    exact .inr (List.filter_eq_nil_iff.mpr fun r hr => by simp [hf r hr])

theorem claimable_iff {r : ItemRow} : claimable job now r = true ↔
    r.jobId = job ∧ (r.status = .pending ∨ (r.status = .claimed ∧ leaseExpired now r = true)) := by
  simp [claimable]

theorem not_terminal_of_claimable {r : ItemRow} (h : claimable job now r = true) :
    r.status.terminal = false := by
  obtain ⟨-, h | h⟩ := claimable_iff.mp h
  · rw [h]; rfl
  · rw [h.1]; rfl

variable (t now job w size)

theorem claimChunk_rows (secs : Int) : (claimChunk t now job w size secs).1.rows =
    t.rows.map fun r =>
      if r ∈ claimed t job size now then claimRow w (now + makeInterval secs) r else r := by
  simp only [claimChunk, update_rows]
  refine List.map_congr_left fun r hr => ?_
  simp only [updateRow, List.contains_iff_mem]
  have hiff : r.id ∈ (claimed t job size now).map ItemRow.id ↔ r ∈ claimed t job size now := by
    constructor
    · intro h
      obtain ⟨r', hr', he⟩ := List.mem_map.mp h
      rwa [← t.id_inj (mem_claimed hr').1 hr he]
    · exact List.mem_map_of_mem
  simp only [hiff]

@[simp] theorem claimChunk_chunk (secs : Int) : (claimChunk t now job w size secs).2 =
    (claimed t job size now).map claimedItem := rfl

end claims

/-! ## `renew_lease` -/

/-- `worker_id = :worker_id AND status = 'CLAIMED'`. -/
def ownedBy (w : WorkerId) (r : ItemRow) : Bool := r.workerId == some w && r.status == .claimed

theorem ownedBy_iff {w : WorkerId} {r : ItemRow} :
    ownedBy w r = true ↔ r.workerId = some w ∧ r.status = .claimed := by
  simp [ownedBy]

/-- mirrors app/infrastructure/db/repositories/work_queue_repository.py:139-150 -/
def renewLease (t : PromptItems) (now : Int) (w : WorkerId) (leaseSeconds : Int) : PromptItems :=
  (t.update (ownedBy w) (fun r => { r with leaseUntil := some (now + makeInterval leaseSeconds) })
    (fun _ => ⟨rfl, rfl, rfl, rfl⟩)).1

theorem renewLease_rows (t : PromptItems) (now : Int) (w : WorkerId) (secs : Int) :
    (renewLease t now w secs).rows = t.rows.map fun r =>
      if ownedBy w r then { r with leaseUntil := some (now + makeInterval secs) } else r := rfl

/-! ## `complete_items` -/

/-- `ref.rsplit("/", 1)[-1]`. -/
def lastComponent (ref : String) : String :=
  String.ofList (ref.toList.reverse.takeWhile (· ≠ '/')).reverse

/-- mirrors app/infrastructure/db/repositories/work_queue_repository.py:43-48 -/
def finishRow (res : ResultRecord) (ref : String) (r : ItemRow) : ItemRow :=
  { r with status := res.status, resultRef := some ref, error := res.error,
           attempts := res.attempts, chunkId := some (lastComponent ref) }

theorem finishRow_keeps (res : ResultRecord) (ref : String) : KeepsKey (finishRow res ref) :=
  fun _ => ⟨rfl, rfl, rfl, rfl⟩

/-- One `_COMPLETE_SQL`.
mirrors app/infrastructure/db/repositories/work_queue_repository.py:40-53 -/
def completeItem (t : PromptItems) (w : WorkerId) (ref : String) (res : ResultRecord) :
    PromptItems × Nat :=
  t.update (fun r => ownedBy w r && r.externalId == res.externalId) (finishRow res ref)
    (finishRow_keeps res ref)

/-- The loop over the records; the count is the sum of the row counts.
mirrors app/infrastructure/db/repositories/work_queue_repository.py:116-137 -/
def completeItems (t : PromptItems) (w : WorkerId) (ref : String) :
    List ResultRecord → PromptItems × Nat
  | [] => (t, 0)
  | res :: rest =>
    let u := completeItem t w ref res
    let v := completeItems u.1 w ref rest
    (v.1, u.2 + v.2)

/-- The record that the loop applies to a row: the first with its external id. -/
def recordFor (results : List ResultRecord) (r : ItemRow) : Option ResultRecord :=
  results.find? fun res => r.externalId == res.externalId

/-- What a whole `complete_items` does to one row. -/
def completeRow (w : WorkerId) (ref : String) (results : List ResultRecord) (r : ItemRow) :
    ItemRow :=
  if ownedBy w r then
    match recordFor results r with
    | some res => finishRow res ref r
    | none => r
  else r

theorem completeRow_sameKey (w : WorkerId) (ref : String) (results : List ResultRecord)
    (r : ItemRow) : r.SameKey (completeRow w ref results r) := by
  unfold completeRow
  split
  · split
    · exact finishRow_keeps _ ref r
    · exact .refl r
  · exact .refl r

theorem completeRow_of_not_owned {w : WorkerId} {r : ItemRow} (h : ownedBy w r = false)
    (ref : String) (results : List ResultRecord) : completeRow w ref results r = r := by
  simp [completeRow, h]

theorem mem_recordFor {results : List ResultRecord} {r : ItemRow} {res : ResultRecord}
    (h : recordFor results r = some res) : res ∈ results ∧ res.externalId = r.externalId := by
  refine ⟨List.mem_of_find?_eq_some h, ?_⟩
  have := List.find?_some h
  simp only [beq_iff_eq] at this
  exact this.symm

theorem not_owned_finish {w : WorkerId} {res : ResultRecord} (h : res.status.terminal = true)
    (ref : String) (r : ItemRow) : ownedBy w (finishRow res ref r) = false := by
  have : res.status ≠ .claimed := by intro e; rw [e] at h; cases h
  simp [ownedBy, finishRow, this]

/-- No record matches a row that an earlier record has finished. -/
def NoRematch (results : List ResultRecord) : Prop :=
  results.Pairwise fun a b => a.status.terminal = true ∨ b.externalId ≠ a.externalId

theorem noRematch_of_terminal {results : List ResultRecord}
    (h : ∀ res ∈ results, res.status.terminal = true) : NoRematch results :=
  List.Pairwise.imp_of_mem (fun ha _ _ => .inl (h _ ha)) (List.pairwise_of_forall fun _ _ => trivial)

theorem noRematch_of_nodup {results : List ResultRecord}
    (h : (results.map (·.externalId)).Nodup) : NoRematch results :=
  (List.pairwise_map.mp h).imp fun h => .inr h.symm

/-- What the loop does with a row that the first record has finished. -/
theorem rest_skips {w : WorkerId} {ref : String} {res : ResultRecord} {rest : List ResultRecord}
    (h : NoRematch (res :: rest)) {r : ItemRow} (he : r.externalId = res.externalId) :
    ownedBy w (finishRow res ref r) = false ∨ recordFor rest (finishRow res ref r) = none := by
  by_cases ht : res.status.terminal = true
  · exact .inl (not_owned_finish ht ref r)
  · refine .inr (List.find?_eq_none.mpr fun x hx => ?_)
    have hne := ((List.pairwise_cons.mp h).1 x hx).resolve_left ht
    simp only [finishRow, beq_iff_eq, he]
    exact fun e => hne e.symm

/-- One iteration of the loop followed by the rest, on one row. -/
theorem completeRow_cons {w : WorkerId} {ref : String} {res : ResultRecord}
    {rest : List ResultRecord} (h : NoRematch (res :: rest)) (r : ItemRow) :
    completeRow w ref rest
        (updateRow (fun r => ownedBy w r && r.externalId == res.externalId) (finishRow res ref) r) =
      completeRow w ref (res :: rest) r := by
  unfold updateRow
  cases ho : ownedBy w r with
  | false => simp [completeRow, ho]
  | true =>
    by_cases he : r.externalId = res.externalId
    · have hself : completeRow w ref rest (finishRow res ref r) = finishRow res ref r := by
        unfold completeRow
        rcases @rest_skips w ref res rest h r he with hs | hs <;> simp [hs]
      rw [if_pos (by simp [ho, he]), hself]
      simp [completeRow, ho, he, recordFor]
    · simp [completeRow, ho, he, recordFor]

variable {results : List ResultRecord}

theorem completeItems_rows (h : NoRematch results) (t : PromptItems) (w : WorkerId)
    (ref : String) : (completeItems t w ref results).1.rows =
      t.rows.map (completeRow w ref results) := by
  induction results generalizing t with
  | nil =>
    have hid : completeRow w ref [] = id := by
      funext r; simp [completeRow, recordFor]
    simp [completeItems, hid]
  | cons res rest ih =>
    simp only [completeItems]
    rw [ih (List.pairwise_cons.mp h).2]
    simp only [completeItem, update_rows, List.map_map]
    exact List.map_congr_left fun r _ => completeRow_cons h r

theorem completeItems_nextId (t : PromptItems) (w : WorkerId) (ref : String)
    (results : List ResultRecord) : (completeItems t w ref results).1.nextId = t.nextId := by
  induction results generalizing t with
  | nil => rfl
  | cons res rest ih =>
    simp only [completeItems]
    rw [ih]
    rfl

/-- One iteration counts a row that the rest of the loop does not count. -/
theorem count_record (w : WorkerId) (ref : String) {rest : List ResultRecord} {res : ResultRecord}
    (h : NoRematch (res :: rest)) (r : ItemRow) :
    let p := fun r => ownedBy w r && r.externalId == res.externalId
    let r' := updateRow p (finishRow res ref) r
    (if p r = true then 1 else 0) +
        (if (ownedBy w r' && (recordFor rest r').isSome) = true then 1 else 0) =
      if (ownedBy w r && (recordFor (res :: rest) r).isSome) = true then 1 else 0 := by
  intro p r'
  by_cases hp : p r = true
  · have hr' : r' = finishRow res ref r := if_pos hp
    simp only [p, Bool.and_eq_true, beq_iff_eq] at hp
    have hs : (ownedBy w r' && (recordFor rest r').isSome) = false := by
      rw [hr']
      rcases @rest_skips w ref res rest h r hp.2 with hs | hs <;> simp [hs]
    rw [hs]
    simp [p, hp.1, hp.2, recordFor]
  · have hr' : r' = r := if_neg hp
    simp only [p, Bool.and_eq_true, beq_iff_eq, not_and] at hp
    cases ho : ownedBy w r with
    | false => simp [p, hr', ho]
    | true => simp [p, hr', ho, hp ho, recordFor]

/-- The count returned is the number of rows that the loop finishes. -/
theorem completeItems_count (h : NoRematch results) (t : PromptItems) (w : WorkerId)
    (ref : String) : (completeItems t w ref results).2 =
      t.rows.countP fun r => ownedBy w r && (recordFor results r).isSome := by
  induction results generalizing t with
  | nil => simp [completeItems, recordFor]
  | cons res rest ih =>
    simp only [completeItems]
    rw [ih (List.pairwise_cons.mp h).2]
    simp only [completeItem, update_rows, update_count]
    induction t.rows with
    | nil => rfl
    | cons r rows ihr =>
      have hr := count_record w ref h r
      simp only [List.map_cons, List.countP_cons] at hr ihr ⊢
      omega

/-! ## `count_by_status`, `has_open_work` -/

/-- mirrors app/infrastructure/db/repositories/work_queue_repository.py:152-159 -/
def countByStatus (t : PromptItems) (job : JobId) (st : ItemStatus) : Nat :=
  t.rows.countP fun r => r.jobId == job && r.status == st

/-- mirrors app/infrastructure/db/repositories/work_queue_repository.py:161-176 -/
def hasOpenWork (t : PromptItems) (job : JobId) (now : Int) : Bool :=
  t.rows.any (claimable job now)

/-- `has_open_work` is whether a claim would come back non-empty. -/
theorem hasOpenWork_eq_false {t : PromptItems} {job : JobId} {now : Int} {size : Nat}
    (h : 1 ≤ size) : hasOpenWork t job now = false ↔ claimed t job size now = [] := by
  rw [claimed_eq_nil h, hasOpenWork, List.any_eq_false]
  simp

end BatchSystem.Queue
