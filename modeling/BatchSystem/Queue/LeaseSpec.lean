import BatchSystem.Core.LeaseQueue
import BatchSystem.Queue.Transactions

/-!
# The table as a queue with leases

`leases` forgets all of a row but where it stands: it waits, a worker has it
under a lease, or it is done, with the whole row as its outcome. One lemma for
each kind of statement says which operation of `Core.LeaseQueue` it is
(`claim_op`, `renew_op`, `complete_op`, `insert_op`).

* `queue_refines`: the queue of atomic transactions is a queue with leases.
-/
namespace BatchSystem.Queue

open BatchSystem.Core Domain PromptItems LeaseQueue

/-- Where a row stands. -/
def taskOf (r : ItemRow) : Task WorkerId ItemRow :=
  match r.status with
  | .pending => .waiting
  | .claimed => .leased (r.workerId.getD "") (r.leaseUntil.getD 0)
  | .succeeded | .failed => .done r

def leases (now : Int) (rows : List ItemRow) : State Nat WorkerId ItemRow where
  now := now
  task id := (rows.find? fun r => r.id = id).map taskOf

theorem taskOf_done {r : ItemRow} (h : r.status.terminal = true) : taskOf r = .done r := by
  unfold taskOf
  cases hs : r.status <;> rw [hs] at h <;> first | rfl | cases h

theorem taskOf_claimed {r : ItemRow} {w : WorkerId} {u : Int} (hs : r.status = .claimed)
    (hw : r.workerId = some w) (hu : r.leaseUntil = some u) : taskOf r = .leased w u := by
  unfold taskOf
  rw [hs, hw, hu]
  rfl

/-- A claimable row is free. -/
theorem free_of_claimable {job : JobId} {asOf : Int} {r : ItemRow}
    (h : claimable job asOf r = true) : (taskOf r).Free asOf := by
  obtain ⟨-, hp | ⟨hc, he⟩⟩ := claimable_iff.mp h
  · rw [taskOf, hp]
    trivial
  · rw [taskOf, hc]
    unfold leaseExpired at he
    cases hu : r.leaseUntil with
    | none => rw [hu] at he; cases he
    | some u => rw [hu] at he; simpa [Task.Free] using he

section rows
variable {rows : List ItemRow} {now : Int}

theorem find_id (hids : rows.Pairwise (·.id < ·.id)) {r : ItemRow} (hr : r ∈ rows) :
    rows.find? (fun r' => r'.id = r.id) = some r := by
  have hn : (rows.map ItemRow.id).Nodup :=
    List.pairwise_map.mpr (hids.imp fun h => Nat.ne_of_lt h)
  cases hf : rows.find? fun r' => r'.id = r.id with
  | none =>
    have := List.find?_eq_none.mp hf r hr
    simp at this
  | some r' =>
    have he : r'.id = r.id := by simpa using List.find?_some hf
    rw [List.inj_on_of_nodup_map hn (List.mem_of_find?_eq_some hf) hr he]

theorem task_row (hids : rows.Pairwise (·.id < ·.id)) {r : ItemRow} (hr : r ∈ rows) :
    (leases now rows).task r.id = some (taskOf r) := by
  simp only [leases, find_id hids hr, Option.map_some]

theorem task_none {id : Nat} (h : ∀ r ∈ rows, r.id ≠ id) : (leases now rows).task id = none := by
  simp only [leases, Option.map_eq_none_iff, List.find?_eq_none]
  simpa using h

theorem holds_iff (hids : rows.Pairwise (·.id < ·.id)) {r : ItemRow} (hr : r ∈ rows)
    (hok : RowOk r) {w : WorkerId} : Holds (leases now rows) w r.id ↔ ownedBy w r = true := by
  unfold Holds
  rw [task_row hids hr, ownedBy_iff]
  constructor
  · rintro ⟨ends, he⟩
    simp only [Option.some.injEq] at he
    unfold taskOf at he
    cases hs : r.status with
    | claimed =>
      obtain ⟨w', hw⟩ := Option.ne_none_iff_exists'.mp (hok.claimed hs).1
      rw [hs, hw] at he
      cases he
      exact ⟨hw, rfl⟩
    | pending | succeeded | failed => rw [hs] at he; cases he
  · rintro ⟨hw, hs⟩
    obtain ⟨u, hu⟩ := Option.ne_none_iff_exists'.mp (hok.claimed hs).2
    exact ⟨u, by rw [taskOf_claimed hs hw hu]⟩

/-- What a statement does to every row, and nothing else. -/
theorem step_map (hids : rows.Pairwise (·.id < ·.id)) {op : Op Nat WorkerId ItemRow}
    {f : ItemRow → ItemRow} (hf : ∀ r, (f r).id = r.id) (hg : Guard (leases now rows) op)
    (hpass : op.passes = 0)
    (hrow : ∀ r ∈ rows, after (leases now rows) r.id op = some (taskOf (f r)))
    (hout : ∀ id, (∀ r ∈ rows, r.id ≠ id) → after (leases now rows) id op = none) :
    Step (leases now rows) op (leases now (rows.map f)) := by
  refine ⟨hg, by rw [hpass]; exact (Int.add_zero _).symm, fun id => ?_⟩
  by_cases h : ∃ r ∈ rows, r.id = id
  · obtain ⟨r, hr, rfl⟩ := h
    have hids' : (rows.map f).Pairwise (·.id < ·.id) :=
      List.pairwise_map.mpr (hids.imp fun h => by rw [hf, hf]; exact h)
    have hmem : f r ∈ rows.map f := List.mem_map_of_mem hr
    rw [hrow r hr, ← hf r, task_row hids' hmem]
  · have hno : ∀ r ∈ rows, r.id ≠ id := fun r hr he => h ⟨r, hr, he⟩
    rw [hout id hno]
    refine task_none fun r' hr' => ?_
    obtain ⟨r, hr, rfl⟩ := List.mem_map.mp hr'
    rw [hf]
    exact hno r hr

/-- The rows of a claim get a new owner. -/
theorem claim_op (hids : rows.Pairwise (·.id < ·.id)) (job : JobId) {w : WorkerId}
    {asOf ends : Int} (hasOf : asOf ≤ now) {ks : Set Nat}
    (hks : ∀ id ∈ ks, ∃ r ∈ rows, r.id = id ∧ claimable job asOf r = true)
    {f : ItemRow → ItemRow} (hf : ∀ r ∈ rows, r.id ∈ ks → f r = claimRow w ends r)
    (hf' : ∀ r ∈ rows, r.id ∉ ks → f r = r) (hid : ∀ r, (f r).id = r.id) :
    Step (leases now rows) (.claim w asOf ends ks) (leases now (rows.map f)) := by
  refine step_map hids hid ⟨hasOf, fun id hk => ?_⟩ rfl (fun r hr => ?_) fun id hno => ?_
  · obtain ⟨r, hr, rfl, hc⟩ := hks id hk
    exact ⟨_, task_row hids hr, free_of_claimable hc⟩
  · by_cases hk : r.id ∈ ks
    · rw [hf r hr hk]
      exact if_pos hk
    · rw [hf' r hr hk]
      exact (if_neg hk).trans (task_row hids hr)
  · refine (if_neg fun hk => ?_).trans (task_none hno)
    obtain ⟨r, hr, he, -⟩ := hks id hk
    exact hno r hr he

theorem renew_op (hids : rows.Pairwise (·.id < ·.id)) (hok : ∀ r ∈ rows, RowOk r) (w : WorkerId)
    (ends : Int) :
    Step (leases now rows) (.renew w ends)
      (leases now (rows.map fun r => if ownedBy w r then { r with leaseUntil := some ends } else r)) := by
  refine step_map hids (fun r => ?_) trivial rfl (fun r hr => ?_) fun id hno => ?_
  · split <;> rfl
  · simp only [after, holds_iff hids hr (hok r hr)]
    split
    · rename_i ho
      obtain ⟨hw, hs⟩ := ownedBy_iff.mp ho
      rw [taskOf_claimed (r := { r with leaseUntil := some ends }) hs hw rfl]
    · exact task_row hids hr
  · refine (if_neg fun hh => ?_).trans (task_none hno)
    obtain ⟨ends, he⟩ := hh
    rw [task_none hno] at he
    cases he

/-- What a completion makes of the rows that it finds records for. -/
def outcomes (rows : List ItemRow) (results : List ResultRecord) (ref : String) (id : Nat) :
    Option ItemRow :=
  (rows.find? fun r => r.id = id).bind fun r =>
    (recordFor results r).map fun res => finishRow res ref r

theorem complete_op (hids : rows.Pairwise (·.id < ·.id)) (hok : ∀ r ∈ rows, RowOk r) (w : WorkerId)
    {results : List ResultRecord} (ht : ∀ res ∈ results, res.status.terminal = true)
    (ref : String) :
    Step (leases now rows) (.finish w (outcomes rows results ref))
      (leases now (rows.map (completeRow w ref results))) := by
  refine step_map hids (fun r => (completeRow_sameKey w ref results r).1) trivial rfl
    (fun r hr => ?_) fun id hno => ?_
  · simp only [after, outcomes, find_id hids hr, Option.bind_some]
    unfold completeRow
    cases hrec : recordFor results r with
    | none =>
      simp only [Option.map_none, ite_self]
      exact task_row hids hr
    | some res =>
      simp only [Option.map_some, holds_iff hids hr (hok r hr)]
      split
      · rename_i ho
        rw [taskOf_done (r := finishRow res ref r) (ht res (mem_recordFor hrec).1)]
      · exact task_row hids hr
  · have hfind : rows.find? (fun r => r.id = id) = none :=
      List.find?_eq_none.mpr fun r hr => by simpa using hno r hr
    simp only [after, outcomes, hfind, Option.bind_none]
    exact task_none hno

/-- The new tasks of an insert. -/
def added (new : List ItemRow) (id : Nat) : Option (Option ItemRow) :=
  (new.find? fun r => r.id = id).map fun r => if r.status = .pending then none else some r

theorem insert_op {new : List ItemRow} (hnew : ∀ r ∈ new, Unclaimed r)
    (hfresh : ∀ r ∈ new, ∀ r' ∈ rows, r'.id ≠ r.id) :
    Step (leases now rows) (.add (added new)) (leases now (rows ++ new)) := by
  refine ⟨fun id hid => ?_, (Int.add_zero _).symm, fun id => ?_⟩
  · simp only [added, ne_eq, Option.map_eq_none_iff] at hid
    obtain ⟨r, hr⟩ := Option.ne_none_iff_exists'.mp hid
    have he : r.id = id := by simpa using List.find?_some hr
    exact task_none fun r' hr' => he ▸ hfresh r (List.mem_of_find?_eq_some hr) r' hr'
  · simp only [after, added]
    cases hf : new.find? fun r => r.id = id with
    | none =>
      simp only [leases, List.find?_append, hf, Option.or_none, Option.map_none]
    | some r =>
      have hr := List.mem_of_find?_eq_some hf
      have he : r.id = id := by simpa using List.find?_some hf
      have hno : rows.find? (fun r => r.id = id) = none :=
        List.find?_eq_none.mpr fun r' hr' => by simpa [he] using hfresh r hr r' hr'
      simp only [leases, List.find?_append, hf, hno, Option.none_or, Option.map_some]
      rcases (hnew r hr).status with hs | hs
      · rw [if_pos hs, taskOf, hs]
      · rw [if_neg (by rw [hs]; simp), taskOf_done (by rw [hs]; rfl)]

end rows

/-! ## The atomic queue -/

/-- What a transaction is for a queue with leases. -/
def leaseOp (s : QState) : Tx → Option (Op Nat WorkerId ItemRow)
  | .tick d => some (.tick d)
  | .bulkInsert job items failed _ =>
    some (.add (added (s.items.freshRows (insertRows job items failed))))
  | .claimChunk job w size secs _ => some (.claim w s.now (s.now + makeInterval secs)
      { id | ∃ r ∈ claimed s.items job size s.now, r.id = id })
  | .completeItems w results ref _ => some (.finish w (outcomes s.items.rows results ref))
  | .renewLease w secs => some (.renew w (s.now + makeInterval secs))

/-- **The work queue is a queue with leases.** -/
theorem queue_refines : queue.Refines (LeaseQueue.system Nat WorkerId ItemRow)
    (fun s => leases s.now s.items.rows) (fun s l => leaseOp s l) := by
  refine ⟨fun s hs id => ?_, fun s l v hr hst => ?_⟩
  · have : s.items = .empty := hs
    simp [leases, this, PromptItems.empty]
  · have hids := s.items.idsSorted
    have hok := rowOk_reachable hr
    have hst' : txStep s l = some v := hst
    have hrows := txStep_rows hst'
    cases l with
    | tick d =>
      cases hst'
      exact ⟨trivial, rfl, fun _ => rfl⟩
    | bulkInsert job items failed count =>
      simp only [txStep, Option.ite_none_right_eq_some, Option.some.injEq] at hst'
      obtain ⟨-, rfl⟩ := hst'
      simp only [leaseOp, bulkInsert_rows]
      refine insert_op (fun r h => (freshRows_unclaimed h).2) fun r h r' h' => ?_
      have := s.items.idsBelow r' h'
      have := (freshRows_ids s.items h).1
      omega
    | claimChunk job w size secs chunk =>
      simp only [txStep, Option.ite_none_right_eq_some, Option.some.injEq] at hst'
      obtain ⟨-, rfl⟩ := hst'
      simp only [leaseOp, claimChunk_rows]
      refine claim_op hids job (Int.le_refl _) (fun id hid => ?_) (fun r hr hk => ?_)
        (fun r hr hk => ?_) fun r => ?_
      · obtain ⟨r, hr, rfl⟩ := hid
        exact ⟨r, (mem_claimed hr).1, rfl, (mem_claimed hr).2⟩
      · obtain ⟨r', hr', he⟩ := hk
        rw [s.items.id_inj (mem_claimed hr').1 hr he] at hr'
        exact if_pos hr'
      · exact if_neg fun hm => hk ⟨r, hm, rfl⟩
      · split <;> rfl
    | completeItems w results ref count =>
      simp only [txStep, Option.ite_none_right_eq_some, Option.some.injEq] at hst'
      obtain ⟨⟨ht, -⟩, rfl⟩ := hst'
      simp only [leaseOp, completeItems_rows (noRematch_of_terminal ht)]
      exact complete_op hids hok w ht ref
    | renewLease w secs =>
      cases hst'
      simp only [leaseOp, renewLease_rows]
      exact renew_op hids hok w _

end BatchSystem.Queue
