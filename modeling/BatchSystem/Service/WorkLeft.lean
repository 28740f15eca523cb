import Mathlib.Algebra.Order.BigOperators.Group.Finset
import BatchSystem.Core.Progress
import BatchSystem.Engine.Heartbeat
import BatchSystem.Engine.RunEnds
import BatchSystem.Service.Lifecycle
import BatchSystem.Service.System

/-!
# The work that is left to a worker pool

A rank for any number of workers on any jobs: the workers that run, the rows that
wait for one, and what each worker has to do before its next claim
(`poolRank`). A worker that stops gives its rows back, which its end pays for. No
step of a worker raises the rank, and all but the heartbeat and the torn writes
lower it (`poolRank_step`), as long as no lease runs out under a running worker.
New rows raise it by four each (`poolRank_insert`), new workers by what each may
have to do (`poolRank_start`).
-/
namespace BatchSystem.Service

open BatchSystem.Core Domain Queue Engine

/-- The steps that a worker cannot repeat for ever. -/
def advances : Act → Bool
  | .claim .. | .processed .. | .written _ | .complete .. | .raise _ => true
  | .tick _ | .bulkInsert .. | .start .. | .renew _ | .renewFails _ | .writePart .. | .crash _ =>
    false

/-- The worker is running. -/
def runs (p : PState) (w : WorkerId) : Bool := (p.workers w).any fun k => k.life = .running

/-- A running worker has the row. -/
def inHand (p : PState) (r : ItemRow) : Bool := r.status == .claimed && r.workerId.any (runs p)

/-- The row waits for a worker. -/
def waits (p : PState) (r : ItemRow) : Bool := !r.status.terminal && !inHand p r

/-- No lease has run out under a running worker. -/
def Unexpired (p : PState) : Prop :=
  ∀ r ∈ p.items.rows, inHand p r = true → leaseExpired p.now r = false

/-! ## The rank -/

section rank
variable (W : Finset WorkerId) (K : Nat) (p : PState)

/-- A sum over workers. -/
def total (f : Worker → Nat) : Nat := ∑ w ∈ W, (p.workers w).elim 0 f

def alive (k : Worker) : Nat := if k.life = .running then 1 else 0

def waitingCount : Nat := p.items.rows.countP (waits p)

/-- `K` bounds the rows that a worker can give back. -/
def poolRank : Nat :=
  total W p alive * (4 * K + 4) + 4 * waitingCount p + total W p Worker.rank

end rank

section workers
variable {W : Finset WorkerId} {K : Nat} {p q u : PState} {w : WorkerId} {k k' : Worker}

theorem runs_iff : runs p w = true ↔ ∃ k, p.workers w = some k ∧ k.life = .running := by
  simp [runs, Option.any_eq_true]

theorem total_set (f : Worker → Nat) (hw : w ∈ W) (hk : p.workers w = some k)
    (hq : q.workers = (p.setWorker w k').workers) : total W q f + f k = total W p f + f k' := by
  have h := LTS.sum_change (f := fun x => (p.workers x).elim 0 f)
    (g := fun x => (q.workers x).elim 0 f) hw fun x _ hne => by rw [hq, setWorker_ne hne]
  simp only [hk, hq, setWorker_same, Option.elim_some] at h
  rw [total, total, hq]
  exact h

theorem waitingCount_le (p : PState) : waitingCount p ≤ p.items.rows.length := List.countP_le_length

/-- A worker goes on, and the rows that wait pay for it. -/
theorem poolRank_moves {phase : Phase} (hw : w ∈ W) (hk : p.workers w = some k)
    (hq : q.workers = (p.setPhase w k phase).workers) {a b : Nat}
    (hc : waitingCount q + a ≤ waitingCount p)
    (hb : Worker.rank { k with phase } + b ≤ k.rank + 4 * a) :
    poolRank W K q + b ≤ poolRank W K p := by
  have h1 := total_set alive hw hk hq
  have h2 := total_set Worker.rank hw hk hq
  have h3 : alive { k with phase } = alive k := rfl
  have h4 : total W q alive = total W p alive := by omega
  unfold poolRank
  rw [h4]
  omega

/-- A worker stops, and gives its rows back. -/
theorem poolRank_stops {life : Life} (hw : w ∈ W) (hk : p.workers w = some k)
    (hl : k.life = .running) (hl' : life ≠ .running) (hq : q.workers = (p.setLife w k life).workers)
    (hi : q.items = p.items) (hK : p.items.rows.length ≤ K) :
    poolRank W K q + 1 ≤ poolRank W K p := by
  have h1 := total_set alive hw hk hq
  have h2 := total_set Worker.rank hw hk hq
  have h3 : waitingCount q ≤ p.items.rows.length := hi ▸ waitingCount_le q
  have hrank : Worker.rank { k with life } = 0 := by
    cases life with
    | running => exact absurd rfl hl'
    | left | raised | crashed => rfl
  rw [alive, alive, if_pos hl, if_neg hl'] at h1
  have h4 : total W p alive = total W q alive + 1 := by omega
  unfold poolRank
  rw [h4, Nat.add_mul]
  omega

theorem runs_moves {phase : Phase} (hl : k.life = .running)
    (hq : q.workers = (p.setPhase w k phase).workers) (x : WorkerId) (h : runs p x = true) :
    runs q x = true := by
  by_cases hx : x = w
  · exact runs_iff.mpr ⟨{ k with phase }, by rw [hx, hq, PState.setPhase, setWorker_same], hl⟩
  · rw [runs, hq, PState.setPhase, setWorker_ne hx]
    exact h

end workers

/-! ## One step -/

section step
variable {p q : PState} {a : Act}

/-- A row in the hands of a worker that goes on is finished or stays there. -/
theorem inHand_next (hr : pool.Reachable p) (hst : pool.step p a q) (hu : Unexpired p)
    (hrun : ∀ w, runs p w = true → runs q w = true) {r : ItemRow}
    (hrow : r ∈ p.items.rows) (h : inHand p r = true) :
    (rowNext p a r).status.terminal = true ∨ inHand q (rowNext p a r) = true := by
  have hlease := hu r hrow h
  obtain ⟨hs, hw⟩ := Bool.and_eq_true_iff.mp h
  have hs : r.status = .claimed := beq_iff_eq.mp hs
  have hstay : ∀ r' : ItemRow, r'.status = r.status → r'.workerId = r.workerId →
      inHand q r' = true := by
    intro r' h1 h2
    refine Bool.and_eq_true_iff.mpr ⟨by rw [h1, hs]; rfl, ?_⟩
    rw [h2]
    rw [Option.any_eq_true] at hw ⊢
    obtain ⟨w, hwid, hw⟩ := hw
    exact ⟨w, hwid, hrun w hw⟩
  have href := pool_refines.step p a q hr hst
  unfold rowNext
  cases hx : txOf p a with
  | none => exact .inr (hstay r rfl rfl)
  | some tx =>
    simp only [hx] at href
    cases lifecycle_step href r with
    | kept h1 h2 => exact .inr (hstay _ h1 h2)
    | claimed h1 => rw [hs] at h1; cases h1
    | reclaimed _ h2 => rw [show leaseExpired p.now r = true from h2] at hlease; cases hlease
    | finished _ h2 => rcases h2 with h2 | h2 <;> rw [h2] <;> exact .inl rfl

/-- No row comes to wait. -/
theorem waits_next (hr : pool.Reachable p) (hst : pool.step p a q) (hu : Unexpired p)
    (hrun : ∀ w, runs p w = true → runs q w = true) {r : ItemRow}
    (hrow : r ∈ p.items.rows) (h : waits q (rowNext p a r) = true) : waits p r = true := by
  obtain ⟨h1, h2⟩ := Bool.and_eq_true_iff.mp h
  rw [Bool.not_eq_true'] at h1 h2
  by_contra hno
  have hno := Bool.eq_false_of_not_eq_true hno
  rw [waits, Bool.and_eq_false_iff, Bool.not_eq_false', Bool.not_eq_false'] at hno
  rcases hno with ht | hin
  · rw [rowNext_terminal p a ht, ht] at h1
    cases h1
  · rcases inHand_next hr hst hu hrun hrow hin with ht | hin
    · rw [ht] at h1
      cases h1
    · rw [hin] at h2
      cases h2

theorem waitingCount_next (hr : pool.Reachable p) (hst : pool.step p a q) (hu : Unexpired p)
    (hrun : ∀ w, runs p w = true → runs q w = true)
    (hnew : rowsNew p a = []) : waitingCount q ≤ waitingCount p := by
  rw [waitingCount, step_rows hr hst, hnew, List.append_nil, List.countP_map]
  exact List.countP_mono_left fun r hrow h => waits_next hr hst hu hrun hrow h

/-- What a worker or the clock does to the pool. -/
inductive WorkerMove (p q : PState) (a : Act) : Prop
  | idle (ha : advances a = false) (hw : q.workers = p.workers) (hi : q.items = p.items)
  | stops {w : WorkerId} {k : Worker} {life : Life} (hk : p.workers w = some k)
      (hl : k.life = .running) (hl' : life ≠ .running)
      (hq : q.workers = (p.setLife w k life).workers) (hi : q.items = p.items)
  | goesOn {w : WorkerId} {k : Worker} {phase : Phase} (hk : p.workers w = some k)
      (hl : k.life = .running) (hq : q.workers = (p.setPhase w k phase).workers)
      (hn : rowsNew p a = []) (hb : Worker.rank { k with phase } + (advances a).toNat ≤ k.rank)
  | claims {w : WorkerId} {k : Worker} {phase : Phase} (hk : p.workers w = some k)
      (hl : k.life = .running) (hq : q.workers = (p.setPhase w k phase).workers)
      (hn : rowsNew p a = []) (hb : Worker.rank { k with phase } + 1 ≤ k.rank + 4)
      (hc : ∃ r ∈ p.items.rows, claimable k.job p.now r = true ∧
        (rowNext p a r).status = .claimed ∧ (rowNext p a r).workerId = some w)

theorem workerMove_of_move (hm : Move p a q) (ha : byWorker a = true) : WorkerMove p q a := by
  cases hm with
  | bulkInsert | start | crash => cases ha
  | tick | writePart => exact .idle rfl rfl rfl
  | leave hk hl | dropped hk hl | raise hk hl => exact .stops hk hl (by simp) rfl rfl
  | claim hk hl hp hne hfresh hperm =>
    obtain ⟨c, hc⟩ := List.exists_mem_of_ne_nil _ hne
    obtain ⟨r, hr, -⟩ := (mem_chunk hperm).mp hc
    refine .claims hk hl rfl (by simp [rowsNew, txOf, hk, rowsAdded])
      (by simp [Worker.rank, hl, hp]) ⟨r, (mem_claimed hr).1, (mem_claimed hr).2, ?_⟩
    rw [rowNext_claim hk, if_pos hr]
    exact ⟨rfl, rfl⟩
  | renew hk hl hp | renewFails hk hl hp | processed hk hl hp | written hk hl hp
  | complete hk hl hp =>
    refine .goesOn hk hl rfl ?_ ?_
    · simp [rowsNew, txOf, hk, hp, rowsAdded]
    · simp [Worker.rank, hl, hp, advances]

/-- A worker adds no row. -/
theorem rows_byWorker (hr : pool.Reachable p) (hst : pool.step p a q) (ha : byWorker a = true) :
    q.items.rows.length = p.items.rows.length := by
  cases workerMove_of_move (move_of_step hst) ha with
  | idle _ _ hi | stops _ _ _ _ hi => rw [hi]
  | goesOn _ _ _ hn | claims _ _ _ hn =>
    rw [step_rows hr hst, hn, List.append_nil, List.length_map]

/-- A claim takes rows that wait. -/
theorem waitingCount_claim (hr : pool.Reachable p) (hst : pool.step p a q) (hu : Unexpired p)
    (hrun : ∀ w, runs p w = true → runs q w = true) (hnew : rowsNew p a = []) {r : ItemRow}
    {job : JobId} {w : WorkerId} (hrow : r ∈ p.items.rows) (hcl : claimable job p.now r = true)
    (hs : (rowNext p a r).status = .claimed) (hw : (rowNext p a r).workerId = some w)
    (hq : runs q w = true) : waitingCount q + 1 ≤ waitingCount p := by
  have hfor : List.Forall₂ (fun x y => x ∈ p.items.rows ∧ y = rowNext p a x) p.items.rows
      (p.items.rows.map (rowNext p a)) := by
    rw [List.forall₂_map_right_iff]
    exact List.forall₂_same.mpr fun x hx => ⟨hx, rfl⟩
  rw [waitingCount, step_rows hr hst, hnew, List.append_nil]
  refine countP_lt_of_forall₂ hfor (fun x y h hy => ?_) ⟨r, hrow, ?_, fun y h => ?_⟩
  · obtain ⟨hx, rfl⟩ := h
    exact waits_next hr hst hu hrun hx hy
  · rw [waits, not_terminal_of_claimable hcl]
    by_contra hin
    have hin : inHand p r = true := by simpa using hin
    have hexp := hu r hrow hin
    rcases (claimable_iff.mp hcl).2 with hp | ⟨-, he⟩
    · rw [inHand, hp] at hin
      cases hin
    · rw [he] at hexp
      cases hexp
  · obtain ⟨-, rfl⟩ := h
    rw [waits, inHand, hs, hw, Option.any_some, hq]
    rfl

variable {W : Finset WorkerId} {K : Nat}

/-- No step of a worker raises the rank. -/
theorem poolRank_step (hr : pool.Reachable p) (hst : pool.step p a q) (ha : byWorker a = true)
    (hu : Unexpired p) (hW : ∀ w, runs p w = true → w ∈ W) (hK : p.items.rows.length ≤ K) :
    poolRank W K q + (advances a).toNat ≤ poolRank W K p := by
  have hin : ∀ {w k}, p.workers w = some k → k.life = .running → w ∈ W :=
    fun hk hl => hW _ (runs_iff.mpr ⟨_, hk, hl⟩)
  have hone : (advances a).toNat ≤ 1 := Bool.toNat_le _
  cases workerMove_of_move (move_of_step hst) ha with
  | idle ha hw hi =>
    have hsame : poolRank W K q = poolRank W K p := by
      unfold poolRank total waitingCount waits inHand runs
      rw [hw, hi]
    rw [hsame, ha]
    exact Nat.le_refl _
  | stops hk hl hl' hq hi =>
    have := @poolRank_stops W K p q _ _ _ (hin hk hl) hk hl hl' hq hi hK
    omega
  | goesOn hk hl hq hn hb =>
    refine poolRank_moves (a := 0) (hin hk hl) hk hq ?_ hb
    exact waitingCount_next hr hst hu (runs_moves hl hq) hn
  | claims hk hl hq hn hb hc =>
    obtain ⟨r, hrow, hcl, hs, hw⟩ := hc
    have hrun := runs_moves hl hq
    have hqw := hrun _ (runs_iff.mpr ⟨_, hk, hl⟩)
    refine poolRank_moves (a := 1) (hin hk hl) hk hq ?_ (by omega)
    exact waitingCount_claim hr hst hu hrun hn hrow hcl hs hw hqw

/-- A `bulk_insert` brings rows that wait. -/
theorem poolRank_insert {job : JobId} {items : List PromptItem} {failed : List ResultRecord}
    (hst : pool.step p (.bulkInsert job items failed) q) :
    poolRank W K q ≤ poolRank W K p + 4 * (items.length + failed.length) ∧
      q.items.rows.length ≤ p.items.rows.length + (items.length + failed.length) := by
  cases move_of_step hst with
  | bulkInsert =>
    have hnew : (p.items.freshRows (insertRows job items failed)).length ≤
        items.length + failed.length := by
      have hle := p.items.freshRows_length_le (insertRows job items failed)
      rwa [insertRows, List.length_append, List.length_map, List.length_map] at hle
    have hrows := bulkInsert_rows p.items job items failed
    have hcount : waitingCount { p with items := (bulkInsert p.items job items failed).1 } ≤
        waitingCount p + (items.length + failed.length) := by
      unfold waitingCount
      rw [hrows, List.countP_append]
      have hold : p.items.rows.countP (waits { p with
          items := (bulkInsert p.items job items failed).1 }) = p.items.rows.countP (waits p) := rfl
      have hle : (p.items.freshRows (insertRows job items failed)).countP (waits { p with
          items := (bulkInsert p.items job items failed).1 }) ≤ _ := List.countP_le_length
      omega
    refine ⟨?_, ?_⟩
    · have h1 : total W { p with items := (bulkInsert p.items job items failed).1 } alive =
          total W p alive := rfl
      have h2 : total W { p with items := (bulkInsert p.items job items failed).1 } Worker.rank =
          total W p Worker.rank := rfl
      unfold poolRank
      rw [h1, h2]
      omega
    · rw [hrows, List.length_append]
      omega

/-- What a sum over workers gains from new ones. -/
theorem total_start {ws : List WorkerId} {k : Worker} {f : Worker → Nat} (hf : f k = 1)
    (hq : ∀ w, q.workers w = if w ∈ ws then some k else p.workers w) :
    total (W ∪ ws.toFinset) q f ≤ total W p f + ws.length := by
  have hnew : ∑ w ∈ ws.toFinset, (q.workers w).elim 0 f ≤ ws.length := by
    have hone : ∑ w ∈ ws.toFinset, (q.workers w).elim 0 f = ∑ w ∈ ws.toFinset, 1 := by
      refine Finset.sum_congr rfl fun w hw => ?_
      rw [hq, if_pos (List.mem_toFinset.mp hw), Option.elim_some, hf]
    rw [hone, ← Finset.card_eq_sum_ones]
    exact List.toFinset_card_le ws
  have hold : ∑ w ∈ W \ ws.toFinset, (q.workers w).elim 0 f ≤ total W p f := by
    have hsame : ∑ w ∈ W \ ws.toFinset, (q.workers w).elim 0 f =
        ∑ w ∈ W \ ws.toFinset, (p.workers w).elim 0 f := by
      refine Finset.sum_congr rfl fun w hw => ?_
      rw [hq, if_neg fun h => (Finset.mem_sdiff.mp hw).2 (List.mem_toFinset.mpr h)]
    rw [hsame]
    exact Finset.sum_le_sum_of_subset Finset.sdiff_subset
  have hsplit : W ∪ ws.toFinset = W \ ws.toFinset ∪ ws.toFinset := by
    rw [Finset.sdiff_union_self_eq_union]
  rw [total, hsplit, Finset.sum_union Finset.sdiff_disjoint]
  exact Nat.add_le_add hold hnew

/-- Rows wait for fewer workers when more run. -/
theorem waitingCount_more (hi : q.items = p.items) (hrun : ∀ w, runs p w = true → runs q w = true) :
    waitingCount q ≤ waitingCount p := by
  unfold waitingCount
  rw [hi]
  refine List.countP_mono_left fun r _ hw => ?_
  obtain ⟨hn, hout⟩ := Bool.and_eq_true_iff.mp hw
  refine Bool.and_eq_true_iff.mpr ⟨hn, ?_⟩
  rw [Bool.not_eq_true'] at hout ⊢
  by_contra hin
  obtain ⟨hs, hany⟩ := Bool.and_eq_true_iff.mp (Bool.eq_true_of_not_eq_false hin)
  obtain ⟨w, hwid, hrunw⟩ := (Option.any_eq_true _ _).mp hany
  have hin' : inHand q r = true :=
    Bool.and_eq_true_iff.mpr ⟨hs, (Option.any_eq_true _ _).mpr ⟨w, hwid, hrun w hrunw⟩⟩
  rw [hin'] at hout
  cases hout

/-- New workers bring their rank, and no row that waits. -/
theorem poolRank_start {ws : List WorkerId} {job : JobId} {settings : Settings}
    (hst : pool.step p (.start ws job settings) q) :
    poolRank (W ∪ ws.toFinset) K q ≤ poolRank W K p + ws.length * (4 * K + 5) ∧
      q.items = p.items := by
  obtain ⟨hi, hq⟩ : q.items = p.items ∧
      ∀ w, q.workers w = if w ∈ ws then some ⟨job, settings, .claiming, .running⟩
        else p.workers w := by
    cases move_of_step hst with
    | start => exact ⟨rfl, fun _ => rfl⟩
  have halive := total_start (W := W) (f := alive) rfl hq
  have hrank := total_start (W := W) (f := Worker.rank) rfl hq
  have hcount : waitingCount q ≤ waitingCount p := by
    refine waitingCount_more hi fun w hw => ?_
    unfold runs at hw ⊢
    rw [hq]
    split
    · rfl
    · exact hw
  refine ⟨?_, hi⟩
  have hmul := Nat.mul_le_mul_right (4 * K + 4) halive
  have hsplit : ws.length * (4 * K + 5) = ws.length * (4 * K + 4) + ws.length :=
    Nat.mul_succ _ _
  rw [Nat.add_mul] at hmul
  unfold poolRank
  omega

/-- A running worker can move on. -/
theorem worker_may_advance {w : WorkerId} (h : runs p w = true) :
    ∃ a q, byWorker a = true ∧ advances a = true ∧ pool.step p a q := by
  obtain ⟨k, hk, hl⟩ := runs_iff.mp h
  have hmay := mayReturn hk hl
  have hrun : p.running w = some k := PState.running_iff.mpr ⟨hk, hl⟩
  cases hp : k.phase with
  | claiming =>
    obtain ⟨cid, q, hst⟩ := claim_possible hk hl hp
    exact ⟨_, q, rfl, rfl, hst⟩
  | processing cid chunk hb =>
    cases hb with
    | sleeping | failed =>
      obtain ⟨q, hq⟩ : ∃ q, step p (.processed w (fun _ _ => .success "") fun _ => 0) = some q := by
        simp only [step, hrun, Option.bind_some, hp]
        exact ⟨_, rfl⟩
      exact ⟨_, q, rfl, rfl, hq⟩
  | writing cid chunk results =>
    rw [hp] at hmay
    obtain ⟨q, hst⟩ := hmay
    exact ⟨_, q, rfl, rfl, hst⟩
  | completing cid chunk results ref =>
    rw [hp] at hmay
    obtain ⟨n, q, hst⟩ := hmay
    exact ⟨_, q, rfl, rfl, hst⟩

end step

end BatchSystem.Service
