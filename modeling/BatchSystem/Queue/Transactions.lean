import BatchSystem.Core.LTS
import BatchSystem.Queue.Repository

/-!
# The queue under any sequence of transactions

`queue` is the system of the four transactions of the work queue, issued by
anyone in any order, and of the clock. A label carries the arguments of the
call and what it returned. A claim may return its rows in any order
(RETURNING promises none).

`txStep_rows` says once what a step does to the table: it maps the old rows by
`rowAfter` and appends `rowsAdded`.
-/
namespace BatchSystem.Queue

open BatchSystem.Core Domain PromptItems

structure QState where
  now : Int
  items : PromptItems

/-- A transaction with its result, or `d` microseconds passing. -/
inductive Tx where
  | tick (d : Nat)
  | bulkInsert (job : JobId) (items : List PromptItem) (failed : List ResultRecord) (count : Nat)
  | claimChunk (job : JobId) (w : WorkerId) (size : Nat) (leaseSeconds : Int)
      (chunk : List ClaimedItem)
  | completeItems (w : WorkerId) (results : List ResultRecord) (ref : String) (count : Nat)
  | renewLease (w : WorkerId) (leaseSeconds : Int)

/-- A worker completes with records that are `SUCCEEDED` or `FAILED` only. -/
def txStep (s : QState) : Tx → Option QState
  | .tick d => some { s with now := s.now + d }
  | .bulkInsert job items failed count =>
    if count = (bulkInsert s.items job items failed).2 then
      some { s with items := (bulkInsert s.items job items failed).1 }
    else none
  | .claimChunk job w size secs chunk =>
    if chunk.isPerm (claimChunk s.items s.now job w size secs).2 then
      some { s with items := (claimChunk s.items s.now job w size secs).1 }
    else none
  | .completeItems w results ref count =>
    if (∀ res ∈ results, res.status.terminal = true) ∧
        count = (completeItems s.items w ref results).2 then
      some { s with items := (completeItems s.items w ref results).1 }
    else none
  | .renewLease w secs => some { s with items := renewLease s.items s.now w secs }

def queue : LTS QState Tx := LTS.ofFn (fun s => s.items = .empty) txStep

/-! ## What a step does to the table -/

/-- An existing row after the step. -/
def rowAfter (s : QState) (l : Tx) (r : ItemRow) : ItemRow :=
  match l with
  | .tick _ => r
  | .bulkInsert .. => r
  | .claimChunk job w size secs _ =>
    if r ∈ claimed s.items job size s.now then claimRow w (s.now + makeInterval secs) r else r
  | .completeItems w results ref _ => completeRow w ref results r
  | .renewLease w secs =>
    if ownedBy w r then { r with leaseUntil := some (s.now + makeInterval secs) } else r

/-- The rows a step adds. -/
def rowsAdded (s : QState) : Tx → List ItemRow
  | .bulkInsert job items failed _ => s.items.freshRows (insertRows job items failed)
  | _ => []

theorem txStep_rows {s v : QState} {l : Tx} (h : txStep s l = some v) :
    v.items.rows = s.items.rows.map (rowAfter s l) ++ rowsAdded s l := by
  cases l with
  | tick d =>
    have hid : rowAfter s (.tick d) = id := rfl
    simp only [txStep, Option.some.injEq] at h; subst h
    simp [hid, rowsAdded]
  | bulkInsert job items failed count =>
    have hid : rowAfter s (.bulkInsert job items failed count) = id := rfl
    simp only [txStep, Option.ite_none_right_eq_some, Option.some.injEq] at h
    obtain ⟨-, rfl⟩ := h
    simp [hid, rowsAdded, bulkInsert_rows]
  | claimChunk job w size secs chunk =>
    simp only [txStep, Option.ite_none_right_eq_some, Option.some.injEq] at h
    obtain ⟨-, rfl⟩ := h
    simp only [rowsAdded, claimChunk_rows, List.append_nil]; rfl
  | completeItems w results ref count =>
    simp only [txStep, Option.ite_none_right_eq_some, Option.some.injEq] at h
    obtain ⟨⟨ht, -⟩, rfl⟩ := h
    simp only [rowsAdded, completeItems_rows (noRematch_of_terminal ht), List.append_nil]; rfl
  | renewLease w secs =>
    simp only [txStep, Option.some.injEq] at h; subst h
    simp only [rowsAdded, renewLease_rows, List.append_nil]; rfl

theorem txStep_now {s v : QState} {l : Tx} (h : txStep s l = some v) : s.now ≤ v.now := by
  cases l <;> simp only [txStep, Option.ite_none_right_eq_some, Option.some.injEq] at h
  case tick d => subst h; simp only; omega
  case renewLease => subst h; exact Int.le_refl _
  all_goals obtain ⟨-, rfl⟩ := h; exact Int.le_refl _

theorem mem_after {s v : QState} {l : Tx} (h : txStep s l = some v) {r : ItemRow} :
    r ∈ v.items.rows ↔ (∃ r₀ ∈ s.items.rows, rowAfter s l r₀ = r) ∨ r ∈ rowsAdded s l := by
  rw [txStep_rows h, List.mem_append, List.mem_map]

theorem rowAfter_mem {s v : QState} {l : Tx} (h : txStep s l = some v) {r : ItemRow}
    (hr : r ∈ s.items.rows) : rowAfter s l r ∈ v.items.rows :=
  (mem_after h).mpr (.inl ⟨r, hr, rfl⟩)

theorem rowAfter_sameKey (s : QState) (l : Tx) (r : ItemRow) : r.SameKey (rowAfter s l r) := by
  cases l with
  | tick | bulkInsert => exact .refl r
  | claimChunk job w size secs chunk =>
    simp only [rowAfter]; split
    · exact claimRow_keeps _ _ r
    · exact .refl r
  | completeItems w results ref count => exact completeRow_sameKey w ref results r
  | renewLease w secs =>
    simp only [rowAfter]; split
    · exact ⟨rfl, rfl, rfl, rfl⟩
    · exact .refl r

theorem rowsAdded_unclaimed {s : QState} {l : Tx} {r : ItemRow} (h : r ∈ rowsAdded s l) :
    Unclaimed r := by
  cases l with
  | bulkInsert => exact (freshRows_unclaimed h).2
  | _ => cases h

/-- **Outcomes are final.** No transaction changes a finished row. -/
theorem rowAfter_terminal (s : QState) (l : Tx) {r : ItemRow} (ht : r.status.terminal = true) :
    rowAfter s l r = r := by
  have ho : ∀ w, ownedBy w r = false := by
    intro w
    have : r.status ≠ .claimed := by intro e; rw [e] at ht; cases ht
    simp [ownedBy, this]
  cases l with
  | tick | bulkInsert => rfl
  | claimChunk job w size secs chunk =>
    refine if_neg fun hc => ?_
    rw [not_terminal_of_claimable (mem_claimed hc).2] at ht
    cases ht
  | completeItems w results ref count => exact completeRow_of_not_owned (ho w) ref results
  | renewLease w secs => exact if_neg (by simp [ho w])

theorem claimChunk_mem {s v : QState} {job : JobId} {w : WorkerId} {size : Nat} {secs : Int}
    {chunk : List ClaimedItem} (h : txStep s (.claimChunk job w size secs chunk) = some v)
    {c : ClaimedItem} : c ∈ chunk ↔ ∃ r ∈ claimed s.items job size s.now, claimedItem r = c := by
  simp only [txStep, Option.ite_none_right_eq_some] at h
  rw [(List.isPerm_iff.mp h.1).mem_iff, claimChunk_chunk, List.mem_map]

/-- In the state before a claim, a row is in the claim's result iff it was
selected. -/
theorem claimChunk_mem_id {s v : QState} {job : JobId} {w : WorkerId} {size : Nat} {secs : Int}
    {chunk : List ClaimedItem} (h : txStep s (.claimChunk job w size secs chunk) = some v)
    {r : ItemRow} (hr : r ∈ s.items.rows) :
    r.id ∈ chunk.map (·.id) ↔ r ∈ claimed s.items job size s.now := by
  rw [List.mem_map]
  constructor
  · rintro ⟨c, hc, he⟩
    obtain ⟨r', hr', rfl⟩ := (claimChunk_mem h).mp hc
    rwa [← s.items.id_inj (mem_claimed hr').1 hr he]
  · intro hm
    exact ⟨claimedItem r, (claimChunk_mem h).mpr ⟨r, hm, rfl⟩, rfl⟩

/-! ## Row invariants -/

/-- A row that waits was never claimed; a claimed row has an owner and a
lease. -/
structure RowOk (r : ItemRow) : Prop where
  pending : r.status = .pending → r.workerId = none
  claimed : r.status = .claimed → r.workerId ≠ none ∧ r.leaseUntil ≠ none

theorem rowOk_after {s v : QState} {l : Tx} (hst : txStep s l = some v) {r : ItemRow}
    (h : RowOk r) : RowOk (rowAfter s l r) := by
  cases l with
  | tick | bulkInsert => exact h
  | claimChunk job w size secs chunk =>
    simp only [rowAfter]; split
    · exact ⟨(fun e => nomatch e), fun _ => ⟨by simp [claimRow], by simp [claimRow]⟩⟩
    · exact h
  | completeItems w results ref count =>
    simp only [txStep, Option.ite_none_right_eq_some] at hst
    simp only [rowAfter, completeRow]
    split
    · split
      · rename_i res hres
        have ht := hst.1.1 res (mem_recordFor hres).1
        refine ⟨fun e => ?_, fun e => ?_⟩ <;> simp only [finishRow] at e <;> rw [e] at ht <;> cases ht
      · exact h
    · exact h
  | renewLease w secs =>
    simp only [rowAfter]; split
    · exact ⟨h.pending, fun e => ⟨(h.claimed e).1, by simp⟩⟩
    · exact h

theorem rowOk_reachable {s : QState} (h : queue.Reachable s) : ∀ r ∈ s.items.rows, RowOk r := by
  refine h.induct (I := fun s => ∀ r ∈ s.items.rows, RowOk r) ?_ ?_
  · intro s hs r hr
    have : s.items = .empty := hs
    rw [this] at hr; cases hr
  · intro s l v _ ih hst r hr
    rcases (mem_after hst).mp hr with ⟨r₀, hr₀, rfl⟩ | hr
    · exact rowOk_after hst (ih r₀ hr₀)
    · have hu := rowsAdded_unclaimed hr
      refine ⟨fun _ => hu.workerId, fun e => ?_⟩
      rcases hu.status with h | h <;> rw [h] at e <;> cases e

end BatchSystem.Queue
