import BatchSystem.Engine.Owner
import Mathlib.Algebra.GroupWithZero.Nat

/-!
# Stale writers are fenced out

What the history of a run says about a completion: the worker is the one of
the row's last claim (`lastClaim`), the record is the one it computed for that
item of that chunk (`lastComputed`), and the counts that `complete_items`
returned add up to the rows that moved from CLAIMED to a final status
(`committed_eq`). `claimInv_run` and `computedInv_run` tie these functions of
the history to the workers' variables.
-/
namespace BatchSystem.Engine

open BatchSystem.Core Domain Queue Storage PState

/-! ## The history -/

/-- The last claim that returned row `id`. -/
def lastClaim (tr : List (Trans PState Act)) (id : Nat) :
    Option (WorkerId × ChunkId × List ClaimedItem) :=
  tr.foldl (fun acc t => match t.lbl with
    | .claim w cid chunk => if id ∈ chunk.map (·.id) then some (w, cid, chunk) else acc
    | _ => acc) none

/-- What one `_process_chunk` of worker `w` computed: the chunk's id and a
record for each of its items. -/
def computedBy (t : Trans PState Act) (w : WorkerId) :
    Option (ChunkId × List (ClaimedItem × ResultRecord)) :=
  match t.lbl with
  | .processed x client latencyMs =>
    if x = w then (t.pre.workers x).bind fun k => match k.phase with
      | .processing cid chunk (.sleeping _) =>
        some (cid, chunk.map fun c =>
          (c, (processRow k.settings c (client c.id) (latencyMs c.id)).1))
      | _ => none
    else none
  | _ => none

def lastComputed (tr : List (Trans PState Act)) (w : WorkerId) :
    Option (ChunkId × List (ClaimedItem × ResultRecord)) :=
  tr.foldl (fun acc t => (computedBy t w).or acc) none

/-- The count that a `complete_items` for the job returned. -/
def countFor (job : JobId) (t : Trans PState Act) : Nat :=
  match t.lbl with
  | .complete w n => if (t.pre.workers w).any (fun k => k.job = job) then n else 0
  | _ => 0

/-- The sum of the counts that the `complete_items` calls for a job returned. -/
def committed (tr : List (Trans PState Act)) (job : JobId) : Nat := (tr.map (countFor job)).sum

/-- The transition moves row `id` from CLAIMED to a final status. -/
def moves (t : Trans PState Act) (id : Nat) : Bool :=
  t.pre.items.rows.any (fun r => r.id = id ∧ r.status = .claimed) &&
    t.post.items.rows.any (fun r => r.id = id ∧ r.status.terminal = true)

theorem lastClaim_snoc (tr : List (Trans PState Act)) (t : Trans PState Act) (id : Nat) :
    lastClaim (tr ++ [t]) id = match t.lbl with
      | .claim w cid chunk =>
        if id ∈ chunk.map (·.id) then some (w, cid, chunk) else lastClaim tr id
      | _ => lastClaim tr id := by
  simp [lastClaim]

theorem lastComputed_snoc (tr : List (Trans PState Act)) (t : Trans PState Act) (w : WorkerId) :
    lastComputed (tr ++ [t]) w = (computedBy t w).or (lastComputed tr w) := by
  simp [lastComputed]

/-! ## Claims -/

/-- The owner of a CLAIMED row is the worker of its last claim, and still holds
that chunk. -/
def ClaimInv (tr : List (Trans PState Act)) (s : PState) : Prop :=
  ∀ r ∈ s.items.rows, r.status = .claimed → ∀ w, r.workerId = some w →
    ∃ cid chunk k, lastClaim tr r.id = some (w, cid, chunk) ∧ s.workers w = some k ∧
      k.phase.chunkId = some cid ∧ k.phase.chunk = chunk

section step
variable {s v : PState} {l : Act}

/-- The items of a claim are the rows that it took. -/
theorem claim_ids {w : WorkerId} {cid : ChunkId} {chunk : List ClaimedItem}
    (hm : Move s (.claim w cid chunk) v) {k : Worker} (hk : s.workers w = some k) {r : ItemRow}
    (hr : r ∈ s.items.rows) :
    r.id ∈ chunk.map (·.id) ↔ r ∈ claimed s.items k.job k.settings.chunkSize s.now := by
  cases hm with
  | leave hk₀ hl hp he =>
    obtain rfl := Option.some.inj (hk₀.symm.trans hk)
    simp [he]
  | claim hk₀ hl hp hne hfresh hperm =>
    obtain rfl := Option.some.inj (hk₀.symm.trans hk)
    rw [List.mem_map]
    constructor
    · rintro ⟨c, hc, he⟩
      obtain ⟨r', hr', rfl⟩ := (mem_chunk hperm).mp hc
      rwa [← s.items.id_inj (mem_claimed hr').1 hr he]
    · exact fun h => ⟨_, (mem_chunk hperm).mpr ⟨r, h, rfl⟩, rfl⟩

/-- A claim that takes a row makes it the row of a worker that held no chunk. -/
theorem claim_not_held {x : WorkerId} {cid : ChunkId} {chunk : List ClaimedItem}
    (hm : Move s (.claim x cid chunk) v) {w : WorkerId} {k : Worker} (hk : s.workers w = some k)
    (hp : k.phase ≠ .claiming) {r : ItemRow} (hr : r ∈ s.items.rows)
    (hw : (rowNext s (.claim x cid chunk) r).workerId = some w) : r.id ∉ chunk.map (·.id) := by
  intro hin
  obtain ⟨kx, hkx, hpx⟩ : ∃ kx, s.workers x = some kx ∧ kx.phase = .claiming := by
    cases hm with
    | leave hkx hl hp | claim hkx hl hp => exact ⟨_, hkx, hp⟩
  rw [rowNext_claim hkx, if_pos ((claim_ids hm hkx hr).mp hin)] at hw
  obtain rfl : x = w := Option.some.inj hw
  obtain rfl := Option.some.inj (hkx.symm.trans hk)
  exact hp hpx

theorem claimInv_step {tr : List (Trans PState Act)} (hr : pool.Reachable s) (h : ClaimInv tr s)
    (hst : pool.step s l v) : ClaimInv (tr ++ [⟨s, l, v⟩]) v := by
  have hm := move_of_step hst
  intro r' hr' hcl w hw
  rcases (mem_next hr hst).mp hr' with ⟨r, hrow, rfl⟩ | hnew
  swap
  · rw [(rowsNew_unclaimed hnew).workerId] at hw; cases hw
  rw [(rowNext_sameKey s l r).1, lastClaim_snoc]
  obtain ⟨k', hk', hj', c', hc', hid'⟩ := (owners_reachable (hr.step hst)).holds _ hr' hcl w hw
  rcases owner_next hr hst hcl hw with ⟨h1, h2, -⟩ | ⟨k, cid, chunk, rfl, hk, hmem⟩
  · -- the row was this worker's before
    obtain ⟨cid, chunk, k, hlast, hk, hcid, hch⟩ := h r hrow h1 w h2
    rcases worker_next hm hk' with ⟨hn, -⟩ | ⟨k₀, hk₀, -, -, hcase⟩
    · rw [hk] at hn; cases hn
    obtain rfl := Option.some.inj (hk₀.symm.trans hk)
    rcases hcase with ⟨e1, e2⟩ | ⟨cid', chunk', hb, -, hp, -⟩ | ⟨n, -, hp⟩
    · refine ⟨cid, chunk, k', ?_, hk', e2.trans hcid, e1.trans hch⟩
      cases l with
      | claim x cid' chunk' =>
        simp only
        split
        · -- a new claim of the row would have changed its owner
          rename_i hin
          exact absurd hin (claim_not_held hm hk (fun hp => by rw [hp] at hcid; cases hcid) hrow hw)
        · exact hlast
      | tick | bulkInsert | start | renew | renewFails | processed | writePart | written
      | complete | raise | crash => exact hlast
    · rw [hp] at hcid; cases hcid
    · rw [hp] at hc'; cases hc'
  · -- the row is taken by this claim
    have hin := (claim_ids hm hk hrow).mpr hmem
    simp only [if_pos hin]
    cases hm with
    | leave hk₀ hl hp he =>
      obtain rfl := Option.some.inj (hk₀.symm.trans hk)
      rw [he] at hmem; cases hmem
    | claim hk₀ => exact ⟨cid, chunk, _, rfl, setWorker_same _ _ _, rfl, rfl⟩

/-! ## Records -/

/-- The records that a worker holds are those it computed for its chunk. -/
def ComputedInv (tr : List (Trans PState Act)) (s : PState) : Prop :=
  ∀ w k, s.workers w = some k → ∀ rs, k.phase.results = some rs →
    ∃ cid pairs, lastComputed tr w = some (cid, pairs) ∧ k.phase.chunkId = some cid ∧
      pairs.map Prod.fst = k.phase.chunk ∧ pairs.map Prod.snd = rs ∧
      ∀ p ∈ pairs, p.2.externalId = p.1.externalId

theorem computedBy_none {w : WorkerId} {k : Worker} (hk : s.workers w = some k)
    (hp : ∀ cid chunk wake, k.phase ≠ .processing cid chunk (.sleeping wake)) :
    computedBy ⟨s, l, v⟩ w = none := by
  cases l with
  | processed x client latencyMs =>
    simp only [computedBy]
    split
    · rename_i he
      subst he
      rw [hk, Option.bind_some]
      split
      · rename_i hq; exact absurd hq (hp _ _ _)
      · rfl
    · rfl
  | _ => rfl

theorem computedInv_step {tr : List (Trans PState Act)} (h : ComputedInv tr s)
    (hst : pool.step s l v) : ComputedInv (tr ++ [⟨s, l, v⟩]) v := by
  intro x k' hx rs hrs
  rcases results_next (move_of_step hst) hx hrs with ⟨k, hk, hres, -, hch, hcid⟩ |
    ⟨k, cid, chunk, wake, client, latencyMs, rfl, hk, hp, rfl⟩
  · obtain ⟨cid, pairs, h1, h2, h3, h4⟩ := h x k hk rs hres
    refine ⟨cid, pairs, ?_, hcid.trans h2, h3.trans hch.symm, h4⟩
    rw [lastComputed_snoc, computedBy_none hk, Option.none_or, h1]
    intro _ _ _ hp
    rw [hp] at hres
    cases hres
  · cases hrs
    refine ⟨cid, chunk.map fun c =>
      (c, (processRow k.settings c (client c.id) (latencyMs c.id)).1), ?_, rfl, ?_, ?_, ?_⟩
    · rw [lastComputed_snoc]
      simp only [computedBy, if_pos, hk, Option.bind_some, hp]
      rfl
    · simp [Phase.chunk, Function.comp_def]
    · simp [processChunk]
    · intro p hpm
      obtain ⟨c, -, rfl⟩ := List.mem_map.mp hpm
      exact processRow_externalId _ _ _ _

/-! ## Rows that move -/

/-- A transaction finishes a row, or gives it a result, only by applying the
first record with its external id, and only for its owner. -/
theorem rowAfter_cases (a : QState) (tx : Tx) (r : ItemRow) :
    ((rowAfter a tx r).status.terminal = r.status.terminal ∧
      (rowAfter a tx r).resultRef = r.resultRef) ∨
    ∃ w results ref n res, tx = .completeItems w results ref n ∧ ownedBy w r = true ∧
      recordFor results r = some res ∧ rowAfter a tx r = finishRow res ref r := by
  cases tx with
  | tick | bulkInsert => exact .inl ⟨rfl, rfl⟩
  | claimChunk =>
    left
    simp only [rowAfter]
    split
    · rename_i hm
      exact ⟨(not_terminal_of_claimable (mem_claimed hm).2).symm, rfl⟩
    · exact ⟨rfl, rfl⟩
  | renewLease =>
    left
    simp only [rowAfter]
    split <;> exact ⟨rfl, rfl⟩
  | completeItems w results ref n =>
    simp only [rowAfter, completeRow]
    by_cases ho : ownedBy w r = true
    · rw [if_pos ho]
      cases hr : recordFor results r with
      | none => exact .inl ⟨rfl, rfl⟩
      | some res => exact .inr ⟨w, results, ref, n, res, rfl, ho, hr, rfl⟩
    · rw [if_neg ho]; exact .inl ⟨rfl, rfl⟩

theorem rowNext_cases (s : PState) (l : Act) (r : ItemRow) :
    ((rowNext s l r).status.terminal = r.status.terminal ∧
      (rowNext s l r).resultRef = r.resultRef) ∨
    ∃ w n k cid chunk results ref res, l = .complete w n ∧ s.workers w = some k ∧
      k.phase = .completing cid chunk results ref ∧ ownedBy w r = true ∧
      recordFor results r = some res ∧ rowNext s l r = finishRow res ref r := by
  unfold rowNext
  cases hx : txOf s l with
  | none => exact .inl ⟨rfl, rfl⟩
  | some tx =>
    simp only
    rcases rowAfter_cases s.queue tx r with h | ⟨w, results, ref, n, res, rfl, ho, hres, he⟩
    · exact .inl h
    right
    cases l with
    | complete x m =>
      simp only [txOf, Option.bind_eq_some_iff] at hx
      obtain ⟨k, hk, hx⟩ := hx
      split at hx
      · rename_i cid chunk rs rf hp
        cases hx
        exact ⟨w, n, k, cid, chunk, results, ref, res, rfl, hk, hp, ho, hres, he⟩
      · cases hx
    | claim | renew => simp [txOf] at hx
    | tick | bulkInsert | start | renewFails | processed | writePart | written | raise | crash =>
      cases hx

theorem rowNext_finish {r : ItemRow} (hn : r.status.terminal = false)
    (ht : (rowNext s l r).status.terminal = true) :
    ∃ w n k cid chunk results ref res, l = .complete w n ∧ s.workers w = some k ∧
      k.phase = .completing cid chunk results ref ∧ ownedBy w r = true ∧
      recordFor results r = some res ∧ rowNext s l r = finishRow res ref r := by
  rcases rowNext_cases s l r with ⟨h, -⟩ | h
  · rw [h, hn] at ht; cases ht
  · exact h

/-- The transition moves a row exactly if the row was CLAIMED and is finished. -/
theorem moves_iff (hr : pool.Reachable s) (hst : pool.step s l v) {r : ItemRow}
    (hm : r ∈ s.items.rows) : moves ⟨s, l, v⟩ r.id = true ↔
      r.status = .claimed ∧ (rowNext s l r).status.terminal = true := by
  simp only [moves, Bool.and_eq_true, List.any_eq_true, decide_eq_true_eq]
  constructor
  · rintro ⟨⟨a, ha, hai, hac⟩, b, hb, hbi, hbt⟩
    obtain rfl := s.items.id_inj ha hm hai
    rw [v.items.id_inj hb (rowNext_mem hr hst hm) (hbi.trans (rowNext_sameKey s l _).1.symm)] at hbt
    exact ⟨hac, hbt⟩
  · rintro ⟨hc, ht⟩
    exact ⟨⟨r, hm, rfl, hc⟩, _, rowNext_mem hr hst hm, (rowNext_sameKey s l r).1, ht⟩

/-- A new row has a new id. -/
theorem rowsNew_id (hr : pool.Reachable s) (hst : pool.step s l v) {r r₀ : ItemRow}
    (h : r ∈ rowsNew s l) (h₀ : r₀ ∈ s.items.rows) : r₀.id < r.id := by
  have hs := v.items.idsSorted
  rw [step_rows hr hst] at hs
  have := (List.pairwise_append.mp hs).2.2 _ (List.mem_map_of_mem h₀) r h
  rwa [(rowNext_sameKey s l r₀).1] at this

end step

theorem claimInv_run {tr : List (Trans PState Act)} {s : PState} (h : pool.Run tr s) :
    ClaimInv tr s := by
  refine h.induct (P := ClaimInv) ?_ fun tr s l v hr hi hst => claimInv_step hr.reachable hi hst
  rintro _ ⟨now, rfl⟩ r hr
  cases hr

theorem computedInv_run {tr : List (Trans PState Act)} {s : PState} (h : pool.Run tr s) :
    ComputedInv tr s := by
  refine h.induct (P := ComputedInv) ?_ fun tr s l v _ hi hst => computedInv_step hi hst
  rintro _ ⟨now, rfl⟩ w k hk
  cases hk

/-- A row that moved stays finished. -/
theorem moved_terminal {tr : List (Trans PState Act)} {s : PState} (h : pool.Run tr s) :
    ∀ id, tr.any (fun t => moves t id) = true →
      ∃ r ∈ s.items.rows, r.id = id ∧ r.status.terminal = true := by
  refine h.induct (P := fun tr s => ∀ id, tr.any (fun t => moves t id) = true →
    ∃ r ∈ s.items.rows, r.id = id ∧ r.status.terminal = true) ?_ ?_
  · intro s _ id hm; cases hm
  · intro tr s l v hr hi hst id hm
    rw [List.any_append, Bool.or_eq_true] at hm
    rcases hm with hm | hm
    · obtain ⟨r, hrow, hid, ht⟩ := hi id hm
      refine ⟨_, rowNext_mem hr.reachable hst hrow, ((rowNext_sameKey s l r).1).trans hid, ?_⟩
      rw [rowNext_terminal s l ht]; exact ht
    · simp only [List.any_cons, List.any_nil, Bool.or_false, moves, Bool.and_eq_true,
        List.any_eq_true, decide_eq_true_eq] at hm
      obtain ⟨-, r, hrow, hid, ht⟩ := hm
      exact ⟨r, hrow, hid, ht⟩

/-- A new row has not moved. -/
theorem not_moved_new {tr : List (Trans PState Act)} {s v : PState} {l : Act} (hr : pool.Run tr s)
    (hst : pool.step s l v) {r : ItemRow} (hn : r ∈ rowsNew s l) :
    (tr ++ [(⟨s, l, v⟩ : Trans PState Act)]).any (fun t => moves t r.id) = false := by
  by_contra hne
  rw [Bool.not_eq_false, List.any_append, Bool.or_eq_true] at hne
  rcases hne with hne | hne
  · obtain ⟨r₀, h₀, hid, -⟩ := moved_terminal hr r.id hne
    have := rowsNew_id hr.reachable hst hn h₀
    omega
  · simp only [List.any_cons, List.any_nil, Bool.or_false, moves, Bool.and_eq_true,
      List.any_eq_true, decide_eq_true_eq] at hne
    obtain ⟨⟨r₀, h₀, hid, -⟩, -⟩ := hne
    have := rowsNew_id hr.reachable hst hn h₀
    omega

/-! ## Counts -/

theorem countP_add {α : Type} {l : List α} {p q r : α → Bool}
    (h : ∀ x ∈ l, r x = (p x || q x) ∧ ¬ (p x = true ∧ q x = true)) :
    l.countP r = l.countP p + l.countP q := by
  induction l with
  | nil => rfl
  | cons x l ih =>
    obtain ⟨h1, h2⟩ := h x List.mem_cons_self
    have := ih fun y hy => h y (List.mem_cons_of_mem _ hy)
    rw [List.countP_cons, List.countP_cons, List.countP_cons, h1]
    cases hp : p x <;> cases hq : q x <;> simp_all <;> omega

theorem complete_inv {s v : PState} {w : WorkerId} {n : Nat} (hm : Move s (.complete w n) v) :
    ∃ k cid chunk results ref, s.workers w = some k ∧
      k.phase = .completing cid chunk results ref ∧
      n = (completeItems s.items w ref results).2 := by
  cases hm with
  | complete hk hl hp => exact ⟨_, _, _, _, _, hk, hp, rfl⟩

/-- What a step adds to the count of a job is what `complete_items` returned. -/
theorem countFor_eq {s v : PState} {l : Act} (hr : pool.Reachable s) (hst : pool.step s l v)
    (job : JobId) : countFor job ⟨s, l, v⟩ =
      s.items.rows.countP fun r => r.jobId == job && moves ⟨s, l, v⟩ r.id := by
  have hm := move_of_step hst
  by_cases hl : ∃ w n, l = .complete w n
  · obtain ⟨w, n, rfl⟩ := hl
    obtain ⟨k, cid, chunk, results, ref, hk, hp, hn⟩ := complete_inv hm
    have ht := (((books_reachable hr).held w k hk).results results (by rw [hp]; rfl)).2
    have hrow : ∀ r ∈ s.items.rows, moves ⟨s, .complete w n, v⟩ r.id = true ↔
        ownedBy w r = true ∧ (recordFor results r).isSome = true := by
      intro r hrm
      rw [moves_iff hr hst hrm, rowNext_complete hk hp]
      unfold completeRow
      by_cases ho : ownedBy w r = true
      · have hc := (ownedBy_iff.mp ho).2
        rw [if_pos ho]
        cases hres : recordFor results r with
        | none => simp [hc, ItemStatus.terminal]
        | some res => simp [hc, ho, finishRow, ht res (mem_recordFor hres).1]
      · rw [if_neg ho]
        simp only [ho, false_and, iff_false, not_and, Bool.not_eq_true, Bool.false_eq_true]
        intro hc; rw [hc]; rfl
    by_cases hj : k.job = job
    · have hcount : countFor job ⟨s, .complete w n, v⟩ = n := by
        simp only [countFor, hk, Option.any_some, hj, decide_true, if_true]
      rw [hcount]
      refine (hn.trans (completeItems_count (noRematch_of_terminal ht) _ _ _)).trans (List.countP_congr fun r hrm => ?_)
      rw [Bool.and_eq_true, Bool.and_eq_true, hrow r hrm, beq_iff_eq]
      exact ⟨fun h => ⟨(owned_item hr hk hrm h.1).1.symm.trans hj, h⟩, fun h => h.2⟩
    · simp only [countFor, hk, Option.any_some, hj, decide_false, Bool.false_eq_true, if_false]
      symm
      rw [List.countP_eq_zero]
      intro r hrm hb
      rw [Bool.and_eq_true, beq_iff_eq, hrow r hrm] at hb
      exact hj ((owned_item hr hk hrm hb.2.1).1.trans hb.1)
  · have h0 : countFor job ⟨s, l, v⟩ = 0 := by
      cases l with
      | complete w n => exact absurd ⟨w, n, rfl⟩ hl
      | _ => rfl
    rw [h0]
    symm
    rw [List.countP_eq_zero]
    intro r hrm hb
    rw [Bool.and_eq_true, moves_iff hr hst hrm] at hb
    obtain ⟨w, n, -, -, -, -, -, -, he, -⟩ :=
      rowNext_finish (by rw [hb.2.1]; rfl) hb.2.2
    exact hl ⟨w, n, he⟩

/-- The counts add up to the rows that moved. -/
theorem committed_eq {tr : List (Trans PState Act)} {s : PState} (h : pool.Run tr s)
    (job : JobId) : committed tr job =
      s.items.rows.countP fun r => r.jobId == job && tr.any fun t => moves t r.id := by
  refine h.induct (P := fun tr s => committed tr job =
    s.items.rows.countP fun r => r.jobId == job && tr.any fun t => moves t r.id) ?_ ?_
  · rintro _ ⟨now, rfl⟩; rfl
  · intro tr s l v hr ih hst
    have hreach := hr.reachable
    rw [committed, List.map_append, List.sum_append, ← committed, ih, step_rows hreach hst,
      List.countP_append, List.countP_map]
    have hzero : (rowsNew s l).countP (fun r => r.jobId == job &&
        (tr ++ [(⟨s, l, v⟩ : Trans PState Act)]).any fun t => moves t r.id) = 0 := by
      rw [List.countP_eq_zero]
      intro r hrn
      rw [not_moved_new hr hst hrn, Bool.and_false]; exact Bool.false_ne_true
    have hsum : ([(⟨s, l, v⟩ : Trans PState Act)].map (countFor job)).sum =
        countFor job ⟨s, l, v⟩ := by simp
    rw [hzero, hsum, countFor_eq hreach hst, Nat.add_zero]
    symm
    refine countP_add fun r hrm => ⟨?_, ?_⟩
    · obtain ⟨e1, e2, -, -⟩ := rowNext_sameKey s l r
      simp only [Function.comp, e1, e2, List.any_append, List.any_cons, List.any_nil,
        Bool.or_false, Bool.and_or_distrib_left]
    · rintro ⟨h1, h2⟩
      rw [Bool.and_eq_true] at h1 h2
      obtain ⟨r₀, h₀, hid, ht⟩ := moved_terminal hr r.id h1.2
      obtain rfl := s.items.id_inj h₀ hrm hid
      rw [((moves_iff hreach hst hrm).mp h2.2).1] at ht
      cases ht

/-! ## Headline -/

/-- **Stale writers are fenced out**, in every run of the pool. (1) When a
completion finishes a row, the worker is the one of the row's last claim, and
the record is the one it computed for that very item of that claim's chunk.
(2) The counts returned for a job add up to its rows that moved from CLAIMED to
a final status. -/
theorem stale_writers_fenced {tr : List (Trans PState Act)} {s : PState} (hr : pool.Run tr s) :
    (∀ w n v, pool.step s (.complete w n) v → ∀ r ∈ s.items.rows, ∀ r' ∈ v.items.rows,
      r'.id = r.id → r.status.terminal = false → r'.status.terminal = true →
      ∃ cid chunk pairs c res ref, lastClaim tr r.id = some (w, cid, chunk) ∧
        lastComputed tr w = some (cid, pairs) ∧ pairs.map Prod.fst = chunk ∧ (c, res) ∈ pairs ∧
        c.id = r.id ∧ r' = finishRow res ref r) ∧
    ∀ job, committed tr job =
      s.items.rows.countP fun r => r.jobId == job && tr.any fun t => moves t r.id := by
  refine ⟨?_, committed_eq hr⟩
  intro w n v hst r hrow r' hr' hid hn ht
  have hreach := hr.reachable
  obtain rfl := v.items.id_inj hr' (rowNext_mem hreach hst hrow)
    (hid.trans (rowNext_sameKey s _ r).1.symm)
  obtain ⟨w', n', k, cid, chunk, results, ref, res, he, hk, hp, ho, hres, hfin⟩ :=
    rowNext_finish hn ht
  obtain ⟨rfl, rfl⟩ : w = w' ∧ n = n' := by simpa using he
  obtain ⟨hw, hc⟩ := ownedBy_iff.mp ho |>.symm.symm
  obtain ⟨cid₁, chunk₁, k₁, hlast, hk₁, hcid₁, hch₁⟩ := claimInv_run hr r hrow hc w hw
  obtain rfl := Option.some.inj (hk₁.symm.trans hk)
  obtain ⟨cid₂, pairs, hcomp, hcid₂, hfst, hsnd, hext⟩ :=
    computedInv_run hr w k₁ hk results (by rw [hp]; rfl)
  obtain rfl := Option.some.inj (hcid₁.symm.trans hcid₂)
  obtain ⟨hmem, hre⟩ := mem_recordFor hres
  rw [← hsnd] at hmem
  obtain ⟨⟨c, res'⟩, hpair, rfl⟩ := List.mem_map.mp hmem
  refine ⟨cid₁, chunk₁, pairs, c, res', ref, hlast, hcomp, hfst.trans hch₁, hpair, ?_, hfin⟩
  -- the item has the row's external id, and both are of the worker's job
  have hcm : c ∈ k₁.phase.chunk := by
    rw [← hfst]; exact List.mem_map_of_mem (f := Prod.fst) hpair
  obtain ⟨r₁, hr₁, e1, e2, e3, -⟩ := (owners_reachable hreach).stands w k₁ hk c hcm
  have hrr : r₁ = r := s.items.key_inj hr₁ hrow
    (e2.trans (owned_item hreach hk hrow ho).1) (e3.trans ((hext _ hpair).symm.trans hre))
  rw [← e1, hrr]

/-! ## Non-vacuity -/

def chunk1 : ChunkId := ⟨"c1", by simp⟩
def chunk2 : ChunkId := ⟨"c2", by simp⟩

def answer (text : String) : Nat → Nat → Outcome := fun _ _ => .success text

/-- `w1` is slower than its lease; `w2` gets its row and computes it again. -/
def staleRun : List Act :=
  [.bulkInsert "j" [⟨"a", "hi"⟩] [], .start ["w1"] "j" {}, .claim "w1" chunk1 [⟨1, "a", "hi", 1⟩],
    .tick 120000001, .start ["w2"] "j" {}, .claim "w2" chunk2 [⟨1, "a", "hi", 2⟩],
    .processed "w1" (answer "one") (fun _ => 5), .written "w1", .complete "w1" 0,
    .processed "w2" (answer "two") (fun _ => 5), .written "w2"]

/-- The late completion of `w1` counts nothing, that of `w2` finishes the row. -/
theorem stale_writers_fenced_reclaim : ∃ tr s v, pool.Run tr s ∧
    pool.step s (.complete "w2" 1) v ∧ committed tr "j" = 0 ∧
    ∃ r ∈ s.items.rows, ∃ r' ∈ v.items.rows, r'.id = r.id ∧
      ∃ cid chunk pairs c res ref, lastClaim tr r.id = some ("w2", cid, chunk) ∧
        lastComputed tr "w2" = some (cid, pairs) ∧ pairs.map Prod.fst = chunk ∧ (c, res) ∈ pairs ∧
        c.id = r.id ∧ r' = finishRow res ref r := by
  obtain ⟨⟨tr, s⟩, he, hc, hs⟩ : ∃ p, LTS.exec step (.init 0) staleRun = some p ∧
      committed p.1 "j" = 0 ∧ ((step p.2 (.complete "w2" 1)).any fun v =>
        p.2.items.rows.any fun r => v.items.rows.any fun r' =>
          r'.id = r.id ∧ r.status.terminal = false ∧ r'.status.terminal = true) = true :=
    ⟨_, rfl, by decide, by decide⟩
  have hr : pool.Run tr s := ⟨_, ⟨0, rfl⟩, LTS.path_of_exec he⟩
  obtain ⟨v, hv, hrows⟩ := (Option.any_eq_true _ _).mp hs
  obtain ⟨r, hrow, hrows⟩ := List.any_eq_true.mp hrows
  obtain ⟨r', hrow', hrows⟩ := List.any_eq_true.mp hrows
  obtain ⟨hid, hn, ht⟩ := of_decide_eq_true hrows
  exact ⟨tr, s, v, hr, hv, hc, r, hrow, r', hrow', hid,
    (stale_writers_fenced hr).1 "w2" 1 v hv r hrow r' hrow' hid hn ht⟩

end BatchSystem.Engine
