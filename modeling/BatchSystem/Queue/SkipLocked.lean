import BatchSystem.Core.RowLocks
import BatchSystem.Queue.LeaseSpec

/-!
# The queue between BEGIN and COMMIT

The transactions of the work queue row by row. Each worker has at most one of
them open. A claim visits the rows of its snapshot in id order and passes over
those that another transaction has locked; `complete_items` and `renew_lease`
wait for them. The clock goes on and others commit in between, and a transaction
may be rolled back anywhere. `now()` is the beginning of a transaction.

* `lock_refines`: at its commits the queue is a queue with leases
  (`Core.LeaseQueue`); so is the queue of atomic transactions (`queue_refines`).
* `skip_locked_exclusive`: concurrent claims hold disjoint rows, all of them
  free, whatever else commits meanwhile.
-/
namespace BatchSystem.Queue

open BatchSystem.Core Domain PromptItems RowLocks

/-! ## The statements -/

/-- A call of the repository with the arguments of its statements. -/
inductive Call where
  | claim (job : JobId) (size : Nat) (leaseSeconds : Int)
  | complete (results : List ResultRecord) (ref : String)
  | renew (leaseSeconds : Int)

/-- A call with the `now()` of its transaction. -/
structure Request where
  now : Int
  call : Call

/-- mirrors app/infrastructure/db/repositories/work_queue_repository.py:16-38 -/
def claimStmt (w : WorkerId) (now : Int) (job : JobId) (size : Nat) (secs : Int) :
    Stmt ItemRow.id where
  cond := claimable job now
  set := claimRow w (now + makeInterval secs)
  keeps _ := rfl
  limit := some size
  skipLocked := true

/-- mirrors app/infrastructure/db/repositories/work_queue_repository.py:40-53 -/
def completeStmt (w : WorkerId) (ref : String) (res : ResultRecord) : Stmt ItemRow.id where
  cond r := ownedBy w r && r.externalId == res.externalId
  set := finishRow res ref
  keeps _ := rfl

/-- mirrors app/infrastructure/db/repositories/work_queue_repository.py:143-147 -/
def renewStmt (w : WorkerId) (now : Int) (secs : Int) : Stmt ItemRow.id where
  cond := ownedBy w
  set r := { r with leaseUntil := some (now + makeInterval secs) }
  keeps _ := rfl

def statements (w : WorkerId) (q : Request) : List (Stmt ItemRow.id) :=
  match q.call with
  | .claim job size secs => [claimStmt w q.now job size secs]
  | .complete results ref => results.map (completeStmt w ref)
  | .renew secs => [renewStmt w q.now secs]

/-- The statements take all rows that they match, and wait for them. -/
def Request.plain (q : Request) : Bool :=
  match q.call with
  | .claim .. => false
  | .complete .. | .renew _ => true

/-- A worker completes with records that are `SUCCEEDED` or `FAILED` only. -/
def Call.proper : Call → Prop
  | .complete results _ => ∀ res ∈ results, res.status.terminal = true
  | .claim .. | .renew _ => True

instance (c : Call) : Decidable c.proper := by
  unfold Call.proper
  split <;> infer_instance

theorem statements_owned : Owned statements ownedBy Request.plain := by
  refine ⟨fun w q hq st hst => ?_, fun w q st hst r hc w' hne => ?_⟩
  · unfold Request.plain at hq
    unfold statements at hst
    split at hst
    · rename_i hcall
      rw [hcall] at hq
      cases hq
    · obtain ⟨res, -, rfl⟩ := List.mem_map.mp hst
      refine ⟨rfl, rfl, fun r hr => ?_⟩
      simp only [completeStmt, Bool.and_eq_true] at hr
      exact hr.1
    · rw [List.mem_singleton] at hst
      subst hst
      exact ⟨rfl, rfl, fun r hr => hr⟩
  · have other : ∀ r' : ItemRow, r'.workerId = some w → ownedBy w' r' = false := by
      intro r' hr'
      rw [ownedBy, hr', beq_eq_false_iff_ne.mpr fun he => hne (Option.some.inj he).symm]
      rfl
    unfold statements at hst
    split at hst
    · rw [List.mem_singleton] at hst
      subst hst
      exact other _ rfl
    · obtain ⟨res, -, rfl⟩ := List.mem_map.mp hst
      simp only [completeStmt, Bool.and_eq_true] at hc
      exact other _ (ownedBy_iff.mp hc.1).1
    · rw [List.mem_singleton] at hst
      subst hst
      exact other _ (ownedBy_iff.mp hc).1

/-- The statements of a `complete_items` on one row. -/
theorem applyAll_complete {w : WorkerId} {ref : String} {results : List ResultRecord}
    (h : NoRematch results) (r : ItemRow) :
    applyAll (results.map (completeStmt w ref)) r = completeRow w ref results r := by
  induction results generalizing r with
  | nil => simp [applyAll, completeRow, recordFor]
  | cons res rest ih =>
    rw [← completeRow_cons h, ← ih (List.pairwise_cons.mp h).2]
    rfl

/-! ## The system -/

structure LState where
  now : Int
  nextId : Nat
  db : DB WorkerId Request ItemRow.id

inductive LAct where
  | tick (d : Nat)
  | bulkInsert (job : JobId) (items : List PromptItem) (failed : List ResultRecord)
  | begin (w : WorkerId) (call : Call)
  | snapshot (w : WorkerId)
  | visit (w : WorkerId)
  | next (w : WorkerId)
  | commit (w : WorkerId)
  | rollback (w : WorkerId)

namespace LState

def rows (s : LState) : List ItemRow := s.db.rows

def tx (s : LState) (w : WorkerId) : Option (Txn Request ItemRow.id) := s.db.txs w

/-- The rows that a `bulk_insert` adds. -/
def fresh (s : LState) (job : JobId) (items : List PromptItem) (failed : List ResultRecord) :
    List ItemRow :=
  firstWins ItemRow.key (s.rows.map ItemRow.key) (number s.nextId (insertRows job items failed))

def run (s : LState) (op : RowLocks.Op WorkerId Request ItemRow) : Option LState :=
  (s.db.step statements op).map fun db => { s with db }

def step (s : LState) : LAct → Option LState
  | .tick d => some { s with now := s.now + d }
  | .bulkInsert job items failed =>
    some { s with
      nextId := s.nextId + (insertRows job items failed).length,
      db := { s.db with rows := s.rows ++ s.fresh job items failed } }
  | .begin w call => if call.proper then s.run (.begin w ⟨s.now, call⟩) else none
  | .snapshot w => s.run (.snapshot w)
  | .visit w => s.run (.visit w)
  | .next w => s.run (.next w)
  | .commit w => s.run (.commit w)
  | .rollback w => s.run (.abort w)

end LState

def lockQueue : LTS LState LAct :=
  LTS.ofFn (fun s => s.nextId = 1 ∧ s.db = { rows := [] }) LState.step

/-! ## Its invariant -/

/-- A lock of a transaction that runs `q`. -/
structure LockOk (q : Request) (l : Lock ItemRow) : Prop where
  rowOk : RowOk l.new
  taken : l.new.status ≠ .pending
  /-- Only claims take rows that wait. -/
  waiting : l.found.status = .pending → ∃ job size secs, q.call = .claim job size secs

structure LockInv (s : LState) : Prop where
  ids : s.rows.Pairwise (·.id < ·.id)
  below : ∀ r ∈ s.rows, r.id < s.nextId
  rowOk : ∀ r ∈ s.rows, RowOk r
  ok : Ok s.db
  programmed : Programmed statements s.db
  singles : Singles statements s.db
  apart : Apart ownedBy s.db
  seen : Seen Request.plain s.db
  lockOk : ∀ w x, s.tx w = some x → ∀ l ∈ x.locks, LockOk x.call l
  proper : ∀ w x, s.tx w = some x → x.call.call.proper
  began : ∀ w x, s.tx w = some x → x.call.now ≤ s.now

theorem fresh_ids {s : LState} {job : JobId} {items : List PromptItem}
    {failed : List ResultRecord} {r : ItemRow} (h : r ∈ s.fresh job items failed) :
    s.nextId ≤ r.id ∧ r.id < s.nextId + (insertRows job items failed).length :=
  number_ids _ _ r (firstWins_subset h)

theorem fresh_sorted (s : LState) (job : JobId) (items : List PromptItem)
    (failed : List ResultRecord) : (s.fresh job items failed).Pairwise (·.id < ·.id) :=
  (number_sorted _ _).sublist (firstWins_sublist _ _)

theorem number_of_mem {n : Nat} {cands : List ItemRow} {r : ItemRow} (h : r ∈ number n cands) :
    ∃ c ∈ cands, r = { c with id := r.id } := by
  induction cands generalizing n with
  | nil => cases h
  | cons c cands ih =>
    rcases List.mem_cons.mp h with rfl | h
    · exact ⟨c, List.mem_cons_self, rfl⟩
    · obtain ⟨c', hc', he⟩ := ih h
      exact ⟨c', List.mem_cons_of_mem _ hc', he⟩

theorem fresh_unclaimed {s : LState} {job : JobId} {items : List PromptItem}
    {failed : List ResultRecord} {r : ItemRow} (h : r ∈ s.fresh job items failed) :
    Unclaimed r := by
  obtain ⟨c, hc, he⟩ := number_of_mem (firstWins_subset h)
  have hu := insertRows_unclaimed hc
  rw [he]
  exact ⟨hu.status, hu.workerId, hu.leaseUntil, hu.resultRef, hu.attempts⟩

theorem Unclaimed.rowOk {r : ItemRow} (h : Unclaimed r) : RowOk r := by
  refine ⟨fun _ => h.workerId, fun e => ?_⟩
  rcases h.status with h | h <;> rw [h] at e <;> cases e

theorem Unclaimed.not_owned {r : ItemRow} (h : Unclaimed r) (w : WorkerId) :
    ownedBy w r = false := by
  rw [ownedBy, h.workerId]
  rfl

/-- An insert is one of the table. -/
theorem insert_move {s : LState} (hi : LockInv s) (job : JobId) (items : List PromptItem)
    (failed : List ResultRecord) : RowLocks.Move statements s.db
      (.insert (s.fresh job items failed))
      { s.db with rows := s.rows ++ s.fresh job items failed } := by
  refine .insert ?_ fun r hr hm => ?_
  · exact List.pairwise_map.mpr ((fresh_sorted s job items failed).imp fun h => Nat.ne_of_lt h)
  · obtain ⟨r', hr', he⟩ := List.mem_map.mp hm
    have := hi.below r' hr'
    have := (fresh_ids hr).1
    omega

/-- What a step of a transaction is on the table. -/
def LAct.op (now : Int) : LAct → Option (RowLocks.Op WorkerId Request ItemRow)
  | .tick _ | .bulkInsert .. => none
  | .begin w call => some (.begin w ⟨now, call⟩)
  | .snapshot w => some (.snapshot w)
  | .visit w => some (.visit w)
  | .next w => some (.next w)
  | .commit w => some (.commit w)
  | .rollback w => some (.abort w)

inductive LMove (s : LState) : LAct → LState → Prop
  | tick (d : Nat) : LMove s (.tick d) { s with now := s.now + d }
  | bulkInsert (job : JobId) (items : List PromptItem) (failed : List ResultRecord) :
      LMove s (.bulkInsert job items failed)
        { s with
          nextId := s.nextId + (insertRows job items failed).length,
          db := { s.db with rows := s.rows ++ s.fresh job items failed } }
  | run {l : LAct} {op : RowLocks.Op WorkerId Request ItemRow}
      {db : DB WorkerId Request ItemRow.id} (hop : l.op s.now = some op)
      (hp : ∀ w call, l = .begin w call → call.proper)
      (hm : RowLocks.Move statements s.db op db) : LMove s l { s with db }

theorem lmove_of_step {s v : LState} {l : LAct} (hi : LockInv s) (h : s.step l = some v) :
    LMove s l v := by
  have run : ∀ {op}, l.op s.now = some op → (∀ w call, l = .begin w call → call.proper) →
      s.run op = some v → LMove s l v := by
    intro op hop hp hr
    obtain ⟨db, hdb, rfl⟩ := Option.map_eq_some_iff.mp hr
    exact .run hop hp (move_of_step hi.ok.keys hdb)
  cases l with
  | tick d =>
    cases h
    exact .tick d
  | bulkInsert job items failed =>
    cases h
    exact .bulkInsert job items failed
  | begin w call =>
    simp only [LState.step, Option.ite_none_right_eq_some] at h
    refine run rfl (fun w' call' he => ?_) h.2
    cases he
    exact h.1
  | snapshot | visit | next | commit | rollback =>
    exact run rfl (fun _ _ he => by cases he) h

theorem LAct.op_ne_insert {l : LAct} {now : Int} {rs : List ItemRow} : l.op now ≠ some (.insert rs) := by
  cases l <;> simp [LAct.op]

/-- What a statement makes of a row that it takes. -/
theorem set_ok {w : WorkerId} {q : Request} (hq : q.call.proper) {st : Stmt ItemRow.id}
    (hst : st ∈ statements w q) {r : ItemRow} (h : RowOk r) (hc : st.cond r = true) :
    RowOk (st.set r) ∧ (st.set r).status ≠ .pending ∧
      (r.status = .pending → ∃ job size secs, q.call = .claim job size secs) := by
  have owned : ownedBy w r = true → r.status ≠ .pending := by
    intro ho e
    rw [(ownedBy_iff.mp ho).2] at e
    cases e
  unfold statements at hst
  split at hst
  · rename_i job size secs hcall
    rw [List.mem_singleton] at hst
    subst hst
    refine ⟨⟨fun e => ?_, fun _ => ?_⟩, ?_, fun _ => ⟨job, size, secs, hcall⟩⟩
    · simp only [claimStmt, claimRow] at e
      cases e
    · simp [claimStmt, claimRow]
    · simp [claimStmt, claimRow]
  · rename_i results ref hcall
    obtain ⟨res, hres, rfl⟩ := List.mem_map.mp hst
    rw [hcall] at hq
    have ht := hq res hres
    simp only [completeStmt, Bool.and_eq_true] at hc
    refine ⟨⟨fun e => ?_, fun e => ?_⟩, fun e => ?_, fun e => absurd e (owned hc.1)⟩
    all_goals
      simp only [completeStmt, finishRow] at e
      rw [e] at ht
      cases ht
  · rw [List.mem_singleton] at hst
    subst hst
    have hne := owned hc
    exact ⟨⟨fun e => absurd e hne, fun e => ⟨(h.claimed e).1, by simp [renewStmt]⟩⟩, hne,
      fun e => absurd e hne⟩

theorem view_rowOk {s : LState} (hi : LockInv s) {w : WorkerId} {x : Txn Request ItemRow.id}
    (hx : s.tx w = some x) {r : ItemRow} (hr : RowOk r) : RowOk (x.view r) := by
  rcases view_cases x r with ⟨l, hl, he⟩ | hv
  · rw [view_lock (hi.ok.lockKeys w x hx) hl he.symm]
    exact (hi.lockOk w x hx l hl).rowOk
  · rw [hv]
    exact hr

theorem view_ids {s : LState} (hi : LockInv s) {w : WorkerId} {x : Txn Request ItemRow.id}
    (hx : s.tx w = some x) : (s.rows.map x.view).map ItemRow.id = s.rows.map ItemRow.id := by
  rw [List.map_map]
  exact List.map_congr_left fun r _ => hi.ok.view_key hx r

/-- Columns of the rows. -/
theorem LockInv.rows_run {s : LState} (hi : LockInv s) {op : RowLocks.Op WorkerId Request ItemRow}
    {db : DB WorkerId Request ItemRow.id} (hm : RowLocks.Move statements s.db op db)
    (hop : ∀ rs, op ≠ .insert rs) :
    db.rows.map ItemRow.id = s.rows.map ItemRow.id ∧ ∀ r ∈ db.rows, RowOk r := by
  cases hm with
  | begin | snapshot | pass | take | next | abort => exact ⟨rfl, hi.rowOk⟩
  | @commit w x hx ht =>
    refine ⟨view_ids hi hx, fun r' hr' => ?_⟩
    obtain ⟨r, hr, rfl⟩ := List.mem_map.mp hr'
    exact view_rowOk hi hx (hi.rowOk r hr)
  | @insert rs => exact absurd rfl (hop rs)

/-- The transactions that are open after a step. -/
theorem LockInv.txs_run {s : LState} (hi : LockInv s) {l : LAct}
    {op : RowLocks.Op WorkerId Request ItemRow} {db : DB WorkerId Request ItemRow.id}
    (hop : l.op s.now = some op) (hp : ∀ w call, l = .begin w call → call.proper)
    (hm : RowLocks.Move statements s.db op db) :
    ∀ w x, db.txs w = some x → (∀ k ∈ x.locks, LockOk x.call k) ∧ x.call.call.proper ∧
      x.call.now ≤ s.now := by
  have old : ∀ w x, s.tx w = some x → (∀ k ∈ x.locks, LockOk x.call k) ∧ x.call.call.proper ∧
      x.call.now ≤ s.now :=
    fun w x hx => ⟨hi.lockOk w x hx, hi.proper w x hx, hi.began w x hx⟩
  intro w y hy
  cases hm with
  | @begin t call hx =>
    rcases of_setTx hy with ⟨rfl, rfl⟩ | ⟨-, hy⟩
    · cases l <;> simp only [LAct.op, Option.some.injEq, reduceCtorEq] at hop
      rename_i w' call'
      cases hop
      refine ⟨fun k hk => ?_, hp _ _ rfl, Int.le_refl _⟩
      cases hk
    · exact old w y hy
  | snapshot hx | pass hx | next hx =>
    rcases of_setTx hy with ⟨rfl, rfl⟩ | ⟨-, hy⟩
    · have h := old w _ hx
      exact h
    · exact old w y hy
  | @take t x st rest r ks hx ht hs hf hr hl hc =>
    rcases of_setTx hy with ⟨rfl, rfl⟩ | ⟨-, hy⟩
    · obtain ⟨h1, h2, h3⟩ := old w x hx
      refine ⟨fun k hk => ?_, h2, h3⟩
      rcases mem_put.mp hk with rfl | ⟨hk, -⟩
      · have hmem : st ∈ statements w x.call := by
          rw [hi.programmed w x hx, ht]
          exact List.mem_append_right _ List.mem_cons_self
        obtain ⟨e1, e2, e3⟩ := set_ok h2 hmem (view_rowOk hi hx (hi.rowOk r hr)) hc
        refine ⟨e1, e2, fun he => ?_⟩
        rcases view_cases x r with ⟨k, hk, hke⟩ | hv
        · have hrow : k.found = r :=
            List.inj_on_of_nodup_map hi.ok.keys (hi.ok.found w x hx k hk).1 hr hke
          exact (h1 k hk).waiting (hrow ▸ he)
        · rw [hv] at e3
          exact e3 he
      · exact h1 k hk
    · exact old w y hy
  | commit | abort => exact old w y (of_release hy).2
  | insert => exact old w y hy

theorem lockInv_step {s v : LState} {l : LAct} (hi : LockInv s) (hm : LMove s l v) : LockInv v := by
  cases hm with
  | tick d =>
    refine ⟨hi.ids, hi.below, hi.rowOk, hi.ok, hi.programmed, hi.singles, hi.apart, hi.seen,
      hi.lockOk, hi.proper, fun w x hx => ?_⟩
    have := hi.began w x hx
    simp only
    omega
  | bulkInsert job items failed =>
    have hmove := insert_move hi job items failed
    refine ⟨?_, fun r hr => ?_, fun r hr => ?_, ok_step hi.ok hmove,
      programmed_step hi.programmed hmove, single_step hi.ok hi.programmed hi.singles hmove,
      apart_step statements_owned hi.programmed hi.apart hmove,
      seen_step statements_owned hi.ok hi.programmed hi.apart hi.seen hmove ?_, hi.lockOk, hi.proper,
      hi.began⟩
    · refine List.pairwise_append.mpr ⟨hi.ids, fresh_sorted s job items failed, ?_⟩
      intro a ha b hb
      exact Nat.lt_of_lt_of_le (hi.below a ha) (fresh_ids hb).1
    · rcases List.mem_append.mp hr with hr | hr
      · have := hi.below r hr
        simp only
        omega
      · exact (fresh_ids hr).2
    · rcases List.mem_append.mp hr with hr | hr
      · exact hi.rowOk r hr
      · exact (fresh_unclaimed hr).rowOk
    · intro rs he r hr w
      cases he
      exact (fresh_unclaimed hr).not_owned w
  | @run l op db hop hp hm =>
    have hno : ∀ rs, op ≠ .insert rs := fun rs he => LAct.op_ne_insert (he ▸ hop)
    obtain ⟨hids, hrows⟩ := hi.rows_run hm hno
    have htxs := hi.txs_run hop hp hm
    refine ⟨?_, fun r hr => ?_, hrows, ok_step hi.ok hm, programmed_step hi.programmed hm,
      single_step hi.ok hi.programmed hi.singles hm,
      apart_step statements_owned hi.programmed hi.apart hm,
      seen_step statements_owned hi.ok hi.programmed hi.apart hi.seen hm
        (fun rs he => absurd he (hno rs)),
      fun w x hx => (htxs w x hx).1, fun w x hx => (htxs w x hx).2.1,
      fun w x hx => (htxs w x hx).2.2⟩
    · show db.rows.Pairwise _
      have h := List.pairwise_map.mpr hi.ids
      rw [← hids] at h
      exact List.pairwise_map.mp h
    · have hmem : r.id ∈ s.rows.map ItemRow.id := hids ▸ List.mem_map_of_mem hr
      obtain ⟨r', hr', he⟩ := List.mem_map.mp hmem
      rw [← he]
      exact hi.below r' hr'

theorem lockInv_reachable {s : LState} (h : lockQueue.Reachable s) : LockInv s := by
  refine h.induct (I := LockInv) (fun s hs => ?_) fun s l v _ hi hst =>
    lockInv_step hi (lmove_of_step hi hst)
  obtain ⟨hn, hdb⟩ := hs
  obtain ⟨now, nextId, db⟩ := s
  obtain rfl : db = { rows := [] } := hdb
  refine ⟨.nil, fun r hr => ?_, fun r hr => ?_, ⟨.nil, ?_, ?_, ?_, ?_, ?_⟩, ?_, ?_, ?_, ?_, ?_, ?_,
    ?_⟩
  all_goals first
    | cases hr
    | intro _ _ hx
      cases hx

/-! ## What a commit is -/

/-- What a claim has locked are rows of the table that it may claim. -/
structure ClaimLocks (s : LState) (w : WorkerId) (x : Txn Request ItemRow.id) (job : JobId)
    (size : Nat) (secs : Int) : Prop where
  found : ∀ l ∈ x.locks, l.found ∈ s.rows ∧ claimable job x.call.now l.found = true
  new : ∀ l ∈ x.locks, l.new = claimRow w (x.call.now + makeInterval secs) l.found
  size : x.locks.length ≤ size

theorem LockInv.claim {s : LState} (hi : LockInv s) {w : WorkerId} {x : Txn Request ItemRow.id}
    (hx : s.tx w = some x) {job : JobId} {size : Nat} {secs : Int}
    (hc : x.call.call = .claim job size secs) : ClaimLocks s w x job size secs := by
  have hst : statements w x.call = [claimStmt w x.call.now job size secs] := by
    unfold statements
    rw [hc]
  have hs := hi.singles w x hx _ hst
  exact ⟨fun l hl => ⟨(hi.ok.found w x hx l hl).1, (hs.locks l hl).1⟩,
    fun l hl => (hs.locks l hl).2, hs.limit size rfl⟩

theorem LockInv.claim_stmt {s : LState} (hi : LockInv s) {w : WorkerId}
    {x : Txn Request ItemRow.id} (hx : s.tx w = some x) {job : JobId} {size : Nat} {secs : Int}
    (hc : x.call.call = .claim job size secs) {st : Stmt ItemRow.id} {rest : List (Stmt ItemRow.id)}
    (ht : x.todo = st :: rest) :
    st = claimStmt w x.call.now job size secs ∧ rest = [] ∧ Single st x := by
  have hst : statements w x.call = [claimStmt w x.call.now job size secs] := by
    unfold statements
    rw [hc]
  obtain ⟨he, hr⟩ := hi.programmed.only hx hst ht
  exact ⟨he, hr, he ▸ hi.singles w x hx _ hst⟩

/-- The ids of the rows that a transaction has locked. -/
def lockedIds (x : Txn Request ItemRow.id) : Set Nat := { id | ∃ l ∈ x.locks, l.found.id = id }

/-- What a step is for a queue with leases: a transaction takes effect when it
commits. -/
def LState.leaseOp (s : LState) : LAct → Option (LeaseQueue.Op Nat WorkerId ItemRow)
  | .tick d => some (.tick d)
  | .bulkInsert job items failed => some (.add (added (s.fresh job items failed)))
  | .commit w => (s.tx w).map fun x => match x.call.call with
    | .claim _ _ secs => .claim w x.call.now (x.call.now + makeInterval secs) (lockedIds x)
    | .complete results ref => .finish w (outcomes s.rows results ref)
    | .renew secs => .renew w (x.call.now + makeInterval secs)
  | .begin .. | .snapshot _ | .visit _ | .next _ | .rollback _ => none

/-- A plain transaction commits what its statements make of the rows. -/
theorem commit_rows {s : LState} (hi : LockInv s) {w : WorkerId} {x : Txn Request ItemRow.id}
    (hx : s.tx w = some x) (hc : x.call.plain = true) (ht : x.todo = []) :
    s.rows.map x.view = s.rows.map (applyAll (statements w x.call)) :=
  commit_atomic hi.programmed hi.seen hx hc ht

theorem commit_op {s : LState} (hi : LockInv s) {w : WorkerId} {x : Txn Request ItemRow.id}
    (hx : s.tx w = some x) (ht : x.todo = []) {op : LeaseQueue.Op Nat WorkerId ItemRow}
    (hop : s.leaseOp (.commit w) = some op) :
    LeaseQueue.Step (leases s.now s.rows) op (leases s.now (s.rows.map x.view)) := by
  have hpx := hi.proper w x hx
  simp only [LState.leaseOp, hx, Option.map_some, Option.some.injEq] at hop
  cases hc : x.call.call with
  | claim job size secs =>
    simp only [hc] at hop
    subst hop
    have hl := hi.claim hx hc
    refine claim_op hi.ids job (hi.began w x hx) (fun id hid => ?_) (fun r hr hid => ?_)
      (fun r hr hid => ?_) (hi.ok.view_key hx)
    · obtain ⟨l, hm, rfl⟩ := hid
      exact ⟨l.found, (hl.found l hm).1, rfl, (hl.found l hm).2⟩
    · obtain ⟨l, hm, he⟩ := hid
      have hrow : l.found = r := List.inj_on_of_nodup_map hi.ok.keys (hl.found l hm).1 hr he
      rw [view_lock (hi.ok.lockKeys w x hx) hm he.symm, hl.new l hm, hrow]
    · exact view_free fun l hm he => hid ⟨l, hm, he⟩
  | complete results ref =>
    simp only [hc] at hop
    subst hop
    rw [hc] at hpx
    have hplain : x.call.plain = true := by
      unfold Request.plain
      rw [hc]
    have hst : statements w x.call = results.map (completeStmt w ref) := by
      unfold statements
      rw [hc]
    rw [commit_rows hi hx hplain ht, hst,
      show applyAll (results.map (completeStmt w ref)) = completeRow w ref results from
        funext (applyAll_complete (noRematch_of_terminal hpx))]
    exact complete_op hi.ids hi.rowOk w hpx ref
  | renew secs =>
    simp only [hc] at hop
    subst hop
    have hplain : x.call.plain = true := by
      unfold Request.plain
      rw [hc]
    have hst : statements w x.call = [renewStmt w x.call.now secs] := by
      unfold statements
      rw [hc]
    rw [commit_rows hi hx hplain ht, hst]
    exact renew_op hi.ids hi.rowOk w _

/-- **At its commits the queue is a queue with leases**, however the statements
of its transactions interleave. -/
theorem lock_refines : lockQueue.Refines (LeaseQueue.system Nat WorkerId ItemRow)
    (fun s => leases s.now s.rows) LState.leaseOp := by
  refine ⟨fun s hs id => ?_, fun s l v hr hst => ?_⟩
  · simp [leases, LState.rows, hs.2]
  · have hi := lockInv_reachable hr
    cases lmove_of_step hi hst with
    | tick d => exact ⟨trivial, rfl, fun _ => rfl⟩
    | bulkInsert job items failed =>
      refine insert_op (fun r h => fresh_unclaimed h) fun r h r' h' => ?_
      have := hi.below r' h'
      have := (fresh_ids h).1
      omega
    | @run l op db hop hp hm =>
      cases hm with
      | begin | snapshot | pass | take | next =>
        cases l <;> cases hop
        rfl
      | abort =>
        cases l <;> cases hop
        rfl
      | @commit w x hx ht =>
        cases l <;> cases hop
        have hx' : s.tx w = some x := hx
        cases hl : s.leaseOp (.commit w) with
        | none => simp [LState.leaseOp, hx'] at hl
        | some lop => exact commit_op hi hx' ht hl
      | insert => exact absurd hop LAct.op_ne_insert

/-! ## Claims in progress -/

/-- The leases that the commits of a history have written. -/
noncomputable def committedLease (tr : List (Trans LState LAct)) (w : WorkerId) (id : Nat) :
    Option Int :=
  LeaseQueue.leaseOf (tr.filterMap (LTS.mapTrans (fun s => leases s.now s.rows) LState.leaseOp))
    w id

/-- The transition commits a completion that finishes the row. -/
def CommitsOutcome (id : Nat) (t : Trans LState LAct) : Prop :=
  ∃ w x results ref, t.lbl = .commit w ∧ t.pre.tx w = some x ∧
    x.call.call = .complete results ref ∧
      ∃ r ∈ t.pre.rows, r.id = id ∧ ownedBy w r = true ∧ recordFor results r ≠ none

theorem lock_run {tr : List (Trans LState LAct)} {s : LState} (h : lockQueue.Run tr s) :
    (LeaseQueue.system Nat WorkerId ItemRow).Run
      (tr.filterMap (LTS.mapTrans (fun s => leases s.now s.rows) LState.leaseOp))
      (leases s.now s.rows) :=
  lock_refines.run h

/-- **Concurrent claims never overlap.** However claims, completions, renewals
and inserts interleave row by row, and whichever of them are rolled back: two
open transactions hold different rows; an open claim holds at most its size, and
each of its rows is free as it is committed, every lease on it having run out;
and no unfinished row is under running leases of two workers. -/
theorem skip_locked_exclusive {tr : List (Trans LState LAct)} {s : LState}
    (h : lockQueue.Run tr s) :
    (∀ w w' x x', s.tx w = some x → s.tx w' = some x' → w ≠ w' →
      ∀ l ∈ x.locks, ∀ l' ∈ x'.locks, l.found.id ≠ l'.found.id) ∧
    (∀ w x job size secs, s.tx w = some x → x.call.call = .claim job size secs →
      x.locks.length ≤ size ∧ ∀ l ∈ x.locks, l.found ∈ s.rows ∧
        claimable job x.call.now l.found = true ∧
          ∀ w' u, committedLease tr w' l.found.id = some u → u < s.now) ∧
    ∀ r ∈ s.rows, r.status.terminal = false → ∀ w w' u u', w ≠ w' →
      committedLease tr w r.id = some u → committedLease tr w' r.id = some u' →
        u < s.now ∨ u' < s.now := by
  have hi := lockInv_reachable h.reachable
  have hl := LeaseQueue.leases_run (lock_run h)
  refine ⟨fun w w' x x' hx hx' hne l hm l' hm' he => hne (hi.ok.exclusive hx hx' hm hm' he),
    fun w x job size secs hx hc => ?_, fun r hr ht w w' u u' hne hu hu' => ?_⟩
  · have hcl := hi.claim hx hc
    refine ⟨hcl.size, fun l hm => ?_⟩
    obtain ⟨hrow, hclaim⟩ := hcl.found l hm
    refine ⟨hrow, hclaim, fun w' u hu => ?_⟩
    obtain ⟨t, ht, -, hcase⟩ := hl w' l.found.id u hu
    rw [task_row hi.ids hrow] at ht
    obtain rfl := Option.some.inj ht
    have hfree := free_of_claimable hclaim
    rcases hcase with hlt | he | ⟨o, he⟩
    · exact hlt
    · rw [he] at hfree
      exact Int.lt_of_lt_of_le hfree (hi.began w x hx)
    · rw [he] at hfree
      exact hfree.elim
  · refine LeaseQueue.one_holder (lock_run h) (fun o ho => ?_) hne hu hu'
    rw [task_row hi.ids hr] at ho
    unfold taskOf at ho
    cases hs : r.status with
    | pending | claimed => rw [hs] at ho; cases ho
    | succeeded | failed => rw [hs] at ht; cases ht

/-! ## Outcomes -/

open scoped Classical in
theorem outcome_count {tr : List (Trans LState LAct)} {s : LState} (h : lockQueue.Run tr s)
    (id : Nat) :
    tr.countP (fun t => decide (CommitsOutcome id t)) ≤
      (tr.filterMap (LTS.mapTrans (fun s => leases s.now s.rows) LState.leaseOp)).countP
        fun t => decide (LeaseQueue.Finishes id t) := by
  rw [List.countP_filterMap]
  refine List.countP_mono_left fun t ht hc => ?_
  obtain ⟨tr₁, tr₂, rfl⟩ := List.append_of_mem ht
  have hi := lockInv_reachable h.split.1.reachable
  obtain ⟨w, x, results, ref, hl, hx, hcall, r, hr, rfl, ho, hrec⟩ := of_decide_eq_true hc
  have hop : t.pre.leaseOp t.lbl = some (.finish w (outcomes t.pre.rows results ref)) := by
    simp only [hl, LState.leaseOp, hx, Option.map_some, hcall]
  simp only [LTS.mapTrans, hop, Option.map_some]
  refine decide_eq_true ⟨w, outcomes t.pre.rows results ref, rfl, ?_, ?_⟩
  · exact (holds_iff hi.ids hr (hi.rowOk r hr)).mpr ho
  · simp only [outcomes, find_id hi.ids hr, Option.bind_some, ne_eq, Option.map_eq_none_iff]
    exact hrec

theorem row_of_done {now : Int} {rows : List ItemRow} {r : ItemRow}
    (h : (leases now rows).task r.id = some (.done r)) : r ∈ rows := by
  simp only [leases, Option.map_eq_some_iff] at h
  obtain ⟨r', hr', hd⟩ := h
  have hmem := List.mem_of_find?_eq_some hr'
  unfold taskOf at hd
  cases hs : r'.status with
  | pending | claimed => rw [hs] at hd; cases hd
  | succeeded | failed => rw [hs] at hd; cases hd; exact hmem

open scoped Classical in
/-- **Outcomes are written once.** However the transactions interleave and
whatever is rolled back, at most one commit finishes a row, and a finished row
stays as it is. -/
theorem outcome_committed_once {tr : List (Trans LState LAct)} {s : LState}
    (h : lockQueue.Run tr s) :
    (∀ id, tr.countP (fun t => decide (CommitsOutcome id t)) ≤ 1) ∧
    ∀ r ∈ s.rows, r.status.terminal = true → ∀ tr' v, lockQueue.Path s tr' v → r ∈ v.rows := by
  refine ⟨fun id => ?_, fun r hr ht tr' v hp => ?_⟩
  · have hle := outcome_count h id
    have honce := LeaseQueue.finished_once (lock_run h) id
    omega
  · refine hp.preserve (I := fun u => r ∈ u.rows) (fun u l v hu hr hst => ?_) h.reachable hr
    have hi := lockInv_reachable hu
    have hdone : (leases u.now u.rows).task r.id = some (.done r) := by
      rw [task_row hi.ids hr, taskOf_done ht]
    have hstep := lock_refines.step u l v hu hst
    cases hl : u.leaseOp l with
    | none =>
      simp only [hl] at hstep
      rw [← hstep] at hdone
      exact row_of_done hdone
    | some op =>
      simp only [hl] at hstep
      exact row_of_done (LeaseQueue.Step.done hstep hdone)

/-! ## Non-vacuity -/

/-- `w2` claims two rows while the claim of `w1` holds the first. -/
def overlappingRun : List LAct :=
  [.bulkInsert "j" [⟨"a", "hi"⟩, ⟨"b", "ho"⟩] [], .begin "w1" (.claim "j" 1 60), .snapshot "w1",
    .begin "w2" (.claim "j" 2 60), .visit "w1", .snapshot "w2", .visit "w2", .visit "w2"]

theorem skip_locked_exclusive_overlapping : ∃ tr s x, lockQueue.Run tr s ∧ s.tx "w2" = some x ∧
    x.locks.map (·.found.id) = [2] ∧ ∀ l ∈ x.locks, claimable "j" 0 l.found = true := by
  obtain ⟨⟨tr, s⟩, he, x, hx, hc, hl⟩ : ∃ p,
      LTS.exec LState.step ⟨0, 1, { rows := [] }⟩ overlappingRun = some p ∧
      ∃ x, p.2.tx "w2" = some x ∧ x.call = ⟨0, .claim "j" 2 60⟩ ∧
        x.locks.map (·.found.id) = [2] := ⟨_, rfl, _, rfl, rfl, rfl⟩
  have hr : lockQueue.Run tr s := ⟨_, ⟨rfl, rfl⟩, LTS.path_of_exec he⟩
  refine ⟨tr, s, x, hr, hx, hl, fun l hm => ?_⟩
  have h := (((skip_locked_exclusive hr).2.1 "w2" x "j" 2 60 hx (by rw [hc])).2 l hm).2.1
  rw [hc] at h
  exact h

/-- The claim of `w1` commits, and `w1` completes its row. -/
def completedRun : List LAct :=
  [.bulkInsert "j" [⟨"a", "hi"⟩] [], .begin "w1" (.claim "j" 1 60), .snapshot "w1", .visit "w1",
    .next "w1", .commit "w1", .begin "w1" (.complete [⟨"a", .succeeded, some "ok", none, 1, none⟩]
      "r"), .snapshot "w1", .visit "w1", .next "w1", .commit "w1"]

theorem outcome_committed_once_completed : ∃ tr s r, lockQueue.Run tr s ∧ r ∈ s.rows ∧
    r.status = .succeeded ∧ ∀ tr' v, lockQueue.Path s tr' v → r ∈ v.rows := by
  obtain ⟨⟨tr, s⟩, he, r, hrow, hs⟩ : ∃ p,
      LTS.exec LState.step ⟨0, 1, { rows := [] }⟩ completedRun = some p ∧
      ∃ r, p.2.rows = [r] ∧ r.status = .succeeded := ⟨_, rfl, _, rfl, rfl⟩
  have hr : lockQueue.Run tr s := ⟨_, ⟨rfl, rfl⟩, LTS.path_of_exec he⟩
  have hmem : r ∈ s.rows := by
    rw [show s.rows = [r] from hrow]
    exact List.mem_cons_self
  exact ⟨tr, s, r, hr, hmem, hs, (outcome_committed_once hr).2 r hmem (by rw [hs]; rfl)⟩

end BatchSystem.Queue
