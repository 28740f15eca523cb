import BatchSystem.Engine.Fencing
import BatchSystem.Engine.Retry

/-!
# The attempts column

Two components write it. A claim counts a delivery; a completion stores how
often the last worker called the client. So the counter of an unfinished row is
the number of its deliveries (`attempts_delivered`), and a finished row has what
the answers of the client made of it (`completed_attempts`).

* `rowNext_attempts`: what a step does to the counter.
* `answers_run`: the records of a worker come from the last answers it got.
* `attempts_grow_iff`: the counter never goes down, and covers the deliveries of
  every finished row, exactly in the runs in which each worker that completes a
  row after `n` deliveries of it got `n - 1` retryable answers first, and was
  allowed to go on.
* `attempts_drop`: a row delivered twice whose second worker succeeds at once.
-/
namespace BatchSystem.Engine

open BatchSystem.Core Domain Queue Storage PState

/-! ## The history -/

/-- The transition hands row `id` to a worker. -/
def delivered (t : Trans PState Act) (id : Nat) : Bool :=
  match t.lbl with
  | .claim _ _ chunk => chunk.any fun c => c.id = id
  | _ => false

/-- How often row `id` was handed to a worker. -/
def deliveries (tr : List (Trans PState Act)) (id : Nat) : Nat := tr.countP fun t => delivered t id

theorem deliveries_snoc (tr : List (Trans PState Act)) (t : Trans PState Act) (id : Nat) :
    deliveries (tr ++ [t]) id = deliveries tr id + (delivered t id).toNat := by
  unfold deliveries
  rw [List.countP_append, List.countP_singleton]
  cases delivered t id <;> rfl

/-- No row has a smaller counter after the transition. -/
def Grows (t : Trans PState Act) : Prop :=
  ∀ r ∈ t.pre.items.rows, ∀ r' ∈ t.post.items.rows, r'.id = r.id → r.attempts ≤ r'.attempts

/-- The settings of worker `w` and the client's answers in its `_process_chunk`. -/
def answeredBy (t : Trans PState Act) (w : WorkerId) :
    Option (Settings × (Nat → Nat → Outcome)) :=
  match t.lbl with
  | .processed x client _ =>
    if x = w then (t.pre.workers x).map fun k => (k.settings, client) else none
  | _ => none

/-- Those of its last `_process_chunk`. -/
def lastAnswers (tr : List (Trans PState Act)) (w : WorkerId) :
    Option (Settings × (Nat → Nat → Outcome)) :=
  tr.foldl (fun acc t => (answeredBy t w).or acc) none

theorem lastAnswers_snoc (tr : List (Trans PState Act)) (t : Trans PState Act) (w : WorkerId) :
    lastAnswers (tr ++ [t]) w = (answeredBy t w).or (lastAnswers tr w) := by
  unfold lastAnswers
  rw [List.foldl_append]
  rfl

/-- For each row that a completing worker still holds, the answers it got last
make at least as many calls as the row was delivered in the history `tr`. -/
def Enough (tr : List (Trans PState Act)) (s : PState) : Act → Prop
  | .complete w _ => ∀ settings client, lastAnswers tr w = some (settings, client) →
      ∀ r ∈ s.items.rows, ownedBy w r = true →
        AsksFor settings (client r.id) (deliveries tr r.id)
  | _ => True

/-! ## One step -/

section step
variable {s v : PState} {l : Act}

theorem delivered_claim {w : WorkerId} {k : Worker} {cid : ChunkId} {chunk : List ClaimedItem}
    (hst : pool.step s (.claim w cid chunk) v) (hk : s.workers w = some k) {r : ItemRow}
    (hr : r ∈ s.items.rows) : delivered ⟨s, .claim w cid chunk, v⟩ r.id = true ↔
      r ∈ claimed s.items k.job k.settings.chunkSize s.now := by
  rw [← claim_ids (move_of_step hst) hk hr]
  simp [delivered]

/-- The counter after a step: one more for a delivery, or the calls of the
record that finishes the row. -/
theorem rowNext_attempts (hst : pool.step s l v) {r : ItemRow} (hr : r ∈ s.items.rows) :
    ((rowNext s l r).status.terminal = r.status.terminal ∧
      (rowNext s l r).attempts = r.attempts + (delivered ⟨s, l, v⟩ r.id).toNat) ∨
    ∃ w n k cid chunk results ref res, l = .complete w n ∧ s.workers w = some k ∧
      k.phase = .completing cid chunk results ref ∧ ownedBy w r = true ∧
      recordFor results r = some res ∧ rowNext s l r = finishRow res ref r := by
  rcases rowNext_cases s l r with ⟨ht, -⟩ | h
  swap
  · exact .inr h
  cases l with
  | claim w cid chunk =>
    obtain ⟨k, hk⟩ : ∃ k, s.workers w = some k := by
      cases move_of_step hst with
      | leave hk | claim hk => exact ⟨_, hk⟩
    refine .inl ⟨ht, ?_⟩
    rw [rowNext_claim hk]
    by_cases hm : r ∈ claimed s.items k.job k.settings.chunkSize s.now
    · rw [if_pos hm, (delivered_claim hst hk hr).mpr hm]
      rfl
    · rw [if_neg hm, Bool.eq_false_iff.mpr fun hd => hm ((delivered_claim hst hk hr).mp hd)]
      exact (Int.add_zero _).symm
  | complete w n =>
    cases move_of_step hst with
    | @complete _ k cid chunk results ref hk hl hp =>
      rw [rowNext_complete hk hp] at ht ⊢
      unfold completeRow at ht ⊢
      split
      · rename_i ho
        split
        · rename_i res hres
          exact .inr ⟨w, _, k, cid, chunk, results, ref, res, rfl, hk, hp, ho, hres, rfl⟩
        · exact .inl ⟨rfl, (Int.add_zero _).symm⟩
      · exact .inl ⟨rfl, (Int.add_zero _).symm⟩
  | renew w =>
    cases move_of_step hst with
    | renew hk =>
      refine .inl ⟨ht, ?_⟩
      rw [rowNext_renew hk]
      split <;> exact (Int.add_zero _).symm
  | tick | bulkInsert | start | renewFails | processed | writePart | written | raise | crash =>
    exact .inl ⟨ht, (Int.add_zero _).symm⟩

/-- A completion leaves its rows finished. -/
theorem finish_terminal (hr : pool.Reachable s) {w : WorkerId} {k : Worker} {cid : ChunkId}
    {chunk : List ClaimedItem} {results : List ResultRecord} {ref : String}
    (hk : s.workers w = some k) (hp : k.phase = .completing cid chunk results ref) {r : ItemRow}
    {res : ResultRecord} (hres : recordFor results r = some res) :
    (finishRow res ref r).status.terminal = true :=
  ((books_reachable hr).held w k hk |>.results results (by rw [hp]; rfl)).2 res
    (mem_recordFor hres).1

/-- A delivered row exists. -/
theorem delivered_row (hst : pool.step s l v) {id : Nat} (h : delivered ⟨s, l, v⟩ id = true) :
    ∃ r ∈ s.items.rows, r.id = id := by
  cases l with
  | claim w cid chunk =>
    simp only [delivered, List.any_eq_true, decide_eq_true_eq] at h
    obtain ⟨c, hc, hid⟩ := h
    cases move_of_step hst with
    | leave => cases hc
    | claim hk hl hp hne hfresh hperm =>
      obtain ⟨r, hr, rfl⟩ := (mem_chunk hperm).mp hc
      exact ⟨r, (mem_claimed hr).1, hid⟩
  | tick | bulkInsert | start | renew | renewFails | processed | writePart | written | complete
  | raise | crash => cases h

/-! ## Unfinished rows -/

/-- The counter of an unfinished row is the number of its deliveries, and only
rows of the table were delivered. -/
structure Counted (tr : List (Trans PState Act)) (s : PState) : Prop where
  row : ∀ id, deliveries tr id ≠ 0 → ∃ r ∈ s.items.rows, r.id = id
  count : ∀ r ∈ s.items.rows, r.status.terminal = false → r.attempts = deliveries tr r.id

variable {tr : List (Trans PState Act)}

/-- A new row was never delivered. -/
theorem Counted.new_row (hc : Counted tr s) (hr : pool.Reachable s) (hst : pool.step s l v)
    {r : ItemRow} (hnew : r ∈ rowsNew s l) : deliveries (tr ++ [⟨s, l, v⟩]) r.id = 0 := by
  have h0 : deliveries tr r.id = 0 := by
    by_contra hne
    obtain ⟨r₀, hr₀, hid⟩ := hc.row r.id hne
    have hlt := rowsNew_id hr hst hnew hr₀
    omega
  obtain ⟨items, failed, rfl⟩ := rowsNew_job hnew
  rw [deliveries_snoc, h0]
  rfl

theorem counted_step (hr : pool.Reachable s) (hc : Counted tr s) (hst : pool.step s l v) :
    Counted (tr ++ [⟨s, l, v⟩]) v := by
  refine ⟨fun id hd => ?_, fun r' hr' hn => ?_⟩
  · have hrow : ∃ r ∈ s.items.rows, r.id = id := by
      rw [deliveries_snoc] at hd
      by_cases h0 : deliveries tr id = 0
      · refine delivered_row hst ?_
        cases hb : delivered ⟨s, l, v⟩ id with
        | true => rfl
        | false =>
          rw [hb, h0] at hd
          exact absurd rfl hd
      · exact hc.row id h0
    obtain ⟨r, hm, rfl⟩ := hrow
    exact ⟨_, rowNext_mem hr hst hm, (rowNext_sameKey s l r).1⟩
  · rcases (mem_next hr hst).mp hr' with ⟨r, hm, rfl⟩ | hnew
    · rcases rowNext_attempts hst hm with ⟨ht, ha⟩ | ⟨w, n, k, cid, chunk, results, ref, res, rfl, hk,
        hp, -, hres, he⟩
      · rw [ha, hc.count r hm (ht ▸ hn), (rowNext_sameKey s l r).1, deliveries_snoc]
        push_cast
        rfl
      · rw [he, finish_terminal hr hk hp hres] at hn
        cases hn
    · rw [hc.new_row hr hst hnew, (rowsNew_unclaimed hnew).attempts]
      rfl

end step

theorem counted_run {tr : List (Trans PState Act)} {s : PState} (h : pool.Run tr s) :
    Counted tr s := by
  refine h.induct (P := Counted) ?_ fun tr s l v hr hi hst => counted_step hr.reachable hi hst
  intro s hs
  obtain ⟨now, rfl⟩ := hs
  exact ⟨fun _ hd => absurd rfl hd, fun _ hr => by cases hr⟩

/-- **The counter of an unfinished row** is the number of its deliveries. -/
theorem attempts_delivered {tr : List (Trans PState Act)} {s : PState} (h : pool.Run tr s)
    {r : ItemRow} (hr : r ∈ s.items.rows) (hn : r.status.terminal = false) :
    r.attempts = deliveries tr r.id :=
  (counted_run h).count r hr hn

/-! ## Finished rows -/

/-- The records that a worker holds are those of its last answers. -/
def AnswersInv (tr : List (Trans PState Act)) (s : PState) : Prop :=
  ∀ w k, s.workers w = some k → ∀ rs, k.phase.results = some rs →
    ∃ client latencyMs, lastAnswers tr w = some (k.settings, client) ∧
      rs = processChunk k.settings k.phase.chunk client latencyMs

section answers
variable {s v : PState} {l : Act}

/-- A worker that holds records gets no answers. -/
theorem answeredBy_none (hst : pool.step s l v) {w : WorkerId} {k : Worker}
    (hk : s.workers w = some k) {rs : List ResultRecord} (hrs : k.phase.results = some rs) :
    answeredBy ⟨s, l, v⟩ w = none := by
  cases l with
  | processed x client latencyMs =>
    unfold answeredBy
    simp only
    split
    · rename_i hx
      subst hx
      cases move_of_step hst with
      | processed hk₀ hl hp | dropped hk₀ hl hp =>
        obtain rfl := Option.some.inj (hk₀.symm.trans hk)
        rw [hp] at hrs
        cases hrs
    · rfl
  | tick | bulkInsert | start | claim | renew | renewFails | writePart | written | complete | raise
  | crash => rfl

theorem answersInv_step {tr : List (Trans PState Act)} (h : AnswersInv tr s)
    (hst : pool.step s l v) : AnswersInv (tr ++ [⟨s, l, v⟩]) v := by
  intro w k' hk' rs hrs
  have hm := move_of_step hst
  rw [lastAnswers_snoc]
  rcases results_next hm hk' hrs with ⟨k, hk, hres, -, hch, -⟩ |
    ⟨k, cid, chunk, wake, client, latencyMs, rfl, hk, hp, rfl⟩
  · obtain ⟨client, latencyMs, hlast, he⟩ := h w k hk rs hres
    have hset : k'.settings = k.settings := by
      rcases worker_next hm hk' with ⟨hn, -⟩ | ⟨k₀, hk₀, -, hset, -⟩
      · rw [hk] at hn
        cases hn
      · obtain rfl := Option.some.inj (hk₀.symm.trans hk)
        exact hset
    rw [answeredBy_none hst hk hres, Option.none_or, hset, hch]
    exact ⟨client, latencyMs, hlast, he⟩
  · cases hrs
    refine ⟨client, latencyMs, ?_, rfl⟩
    simp only [answeredBy, if_true, hk, Option.map_some, Option.some_or]

theorem answers_run {tr : List (Trans PState Act)} {s : PState} (h : pool.Run tr s) :
    AnswersInv tr s := by
  refine h.induct (P := AnswersInv) ?_ fun tr s l v _ hi hst => answersInv_step hi hst
  intro s hs w k hk
  obtain ⟨now, rfl⟩ := hs
  cases hk

/-- **What a completion stores** for a row that its worker still holds: the calls
that the last answers for this row make. -/
theorem completed_attempts {tr : List (Trans PState Act)} (h : pool.Run tr s) {w : WorkerId}
    {k : Worker} (hk : s.workers w = some k) {results : List ResultRecord}
    (hresults : k.phase.results = some results) {r : ItemRow} (hr : r ∈ s.items.rows)
    (ho : ownedBy w r = true) {res : ResultRecord} (hres : recordFor results r = some res) :
    ∃ client, lastAnswers tr w = some (k.settings, client) ∧
      res.attempts = stopIndex (client r.id) k.settings.retryMaxAttempts + 1 := by
  obtain ⟨client, latencyMs, hlast, rfl⟩ := answers_run h w k hk results hresults
  refine ⟨client, hlast, ?_⟩
  obtain ⟨hmem, hext⟩ := mem_recordFor hres
  obtain ⟨c, hc, rfl⟩ := List.mem_map.mp hmem
  -- the item is that of the row: both are of the worker's job and have its external id
  rw [processRow_externalId] at hext
  obtain ⟨r₁, hr₁, hid, hjob, hext₁, -⟩ := (owners_reachable h.reachable).stands w k hk c hc
  have hjob₁ : r₁.jobId = r.jobId := hjob.trans (owned_item h.reachable hk hr ho).1
  have he : r₁ = r := s.items.key_inj hr₁ hr hjob₁ (hext₁.trans hext)
  have hcr : c.id = r.id := by rw [← hid, he]
  rw [processRow_attempts, hcr]

end answers

/-! ## Headline -/

/-- Of all steps only a completion can lower a counter, and it does so for a row
with fewer calls than deliveries. -/
theorem grows_iff {tr : List (Trans PState Act)} {s v : PState} {l : Act} (h : pool.Run tr s)
    (hst : pool.step s l v) : Grows ⟨s, l, v⟩ ↔ Enough tr s l := by
  constructor
  · intro hg
    cases l with
    | complete w n =>
      intro settings client hlast r hrow ho
      have hm := move_of_step hst
      obtain ⟨k, cid, chunk, results, ref, hk, hp, -⟩ := complete_inv hm
      obtain ⟨-, c, hc, hcid, -⟩ := owned_item h.reachable hk hrow ho
      obtain ⟨_, _, _, _, hp', hsome⟩ :=
        (owners_reachable h.reachable).completed h.reachable hm hk hc hrow hcid
      obtain ⟨-, -, rfl, -⟩ := Phase.completing.inj (hp'.symm.trans hp)
      obtain ⟨res, hres⟩ := Option.ne_none_iff_exists'.mp hsome
      obtain ⟨client', hlast', hatt⟩ :=
        completed_attempts h hk (by rw [hp]; rfl) hrow ho hres
      obtain ⟨rfl, rfl⟩ := Prod.mk.inj (Option.some.inj (hlast'.symm.trans hlast))
      have hcount : r.attempts = deliveries tr r.id :=
        attempts_delivered h hrow (by rw [(ownedBy_iff.mp ho).2]; rfl)
      have hle : r.attempts ≤ (rowNext s (.complete w n) r).attempts :=
        hg r hrow _ (rowNext_mem h.reachable hst hrow) (rowNext_sameKey _ _ r).1
      rw [rowNext_complete hk hp, completeRow, if_pos ho, hres] at hle
      have hrec : r.attempts ≤ res.attempts := hle
      rw [asksFor_iff]
      omega
    | tick | bulkInsert | start | claim | renew | renewFails | processed | writePart | written
    | raise | crash => trivial
  · intro hen r hrow r' hr' hid
    have he : r' = rowNext s l r :=
      v.items.id_inj hr' (rowNext_mem h.reachable hst hrow)
        (hid.trans (rowNext_sameKey s l r).1.symm)
    subst he
    rcases rowNext_attempts hst hrow with ⟨-, ha⟩ | ⟨w, n, k, cid, chunk, results, ref, res, rfl, hk,
      hp, ho, hres, he⟩
    · omega
    · obtain ⟨client, hlast, hatt⟩ := completed_attempts h hk (by rw [hp]; rfl) hrow ho hres
      have hcount : r.attempts = deliveries tr r.id :=
        attempts_delivered h hrow (by rw [(ownedBy_iff.mp ho).2]; rfl)
      have hasks := hen k.settings client hlast r hrow ho
      rw [asksFor_iff] at hasks
      rw [he]
      have hrec : (finishRow res ref r).attempts = res.attempts := rfl
      omega

/-- A counter that never goes down covers the deliveries. -/
theorem deliveries_le {tr : List (Trans PState Act)} {s : PState} (h : pool.Run tr s) :
    (∀ t ∈ tr, Grows t) → ∀ r ∈ s.items.rows, (deliveries tr r.id : Int) ≤ r.attempts := by
  refine h.induct (P := fun tr s => (∀ t ∈ tr, Grows t) →
    ∀ r ∈ s.items.rows, (deliveries tr r.id : Int) ≤ r.attempts) ?_ ?_
  · intro s hs _ r hr
    obtain ⟨now, rfl⟩ := hs
    cases hr
  · intro tr s l v hr hi hst hg r' hr'
    rcases (mem_next hr.reachable hst).mp hr' with ⟨r, hrow, rfl⟩ | hnew
    · have hle := hi (fun t ht => hg t (List.mem_append_left _ ht)) r hrow
      rw [(rowNext_sameKey s l r).1, deliveries_snoc]
      push_cast
      rcases rowNext_attempts hst hrow with ⟨-, ha⟩ | ⟨w, n, k, cid, chunk, results, ref, res, rfl, -⟩
      · omega
      · have hstep : r.attempts ≤ (rowNext s (.complete w n) r).attempts :=
          hg _ (List.mem_append_right _ List.mem_cons_self) r hrow _ hr' (rowNext_sameKey _ _ r).1
        have hd : (delivered ⟨s, .complete w n, v⟩ r.id).toNat = 0 := rfl
        omega
    · rw [(counted_run hr).new_row hr.reachable hst hnew, (rowsNew_unclaimed hnew).attempts]
      rfl

/-- **The attempts counter never goes backwards**, and so covers the deliveries
of every finished row, in exactly those runs in which the following holds of each
completion: for each row that its worker still holds, delivered `n` times so far,
the first `n - 1` answers that the worker got are retryable, and
`retry_max_attempts` allows a call after each of them. -/
theorem attempts_grow_iff {tr : List (Trans PState Act)} {s : PState} (h : pool.Run tr s) :
    ((∀ t ∈ tr, Grows t) ∧ ∀ r ∈ s.items.rows, r.status.terminal = true →
      (deliveries tr r.id : Int) ≤ r.attempts) ↔
    ∀ tr₁ t tr₂, tr = tr₁ ++ t :: tr₂ → Enough tr₁ t.pre t.lbl := by
  have each : ∀ tr₁ t tr₂, tr = tr₁ ++ t :: tr₂ → (Grows t ↔ Enough tr₁ t.pre t.lbl) := by
    intro tr₁ t tr₂ he
    subst he
    obtain ⟨hr, hst, -⟩ := h.split
    exact grows_iff hr hst
  constructor
  · intro hg tr₁ t tr₂ he
    refine (each tr₁ t tr₂ he).mp (hg.1 t ?_)
    rw [he]
    exact List.mem_append_right _ List.mem_cons_self
  · intro hen
    have hg : ∀ t ∈ tr, Grows t := by
      intro t ht
      obtain ⟨tr₁, tr₂, he⟩ := List.append_of_mem ht
      exact (each tr₁ t tr₂ he).mpr (hen tr₁ t tr₂ he)
    exact ⟨hg, fun r hr _ => deliveries_le h hg r hr⟩

/-! ## Non-vacuity -/

/-- `w1` outlives its lease; the row is delivered again, to `w2`. -/
def redelivered (client : Nat → Nat → Outcome) : List Act :=
  [.bulkInsert "j" [⟨"a", "hi"⟩] [], .start ["w1", "w2"] "j" {},
    .claim "w1" chunk1 [⟨1, "a", "hi", 1⟩], .tick 120000001,
    .claim "w2" chunk2 [⟨1, "a", "hi", 2⟩], .processed "w2" client (fun _ => 5), .written "w2",
    .complete "w2" 1]

/-- `Enough` of a transition after the history `tr`. -/
def enoughIn (tr : List (Trans PState Act)) (t : Trans PState Act) : Bool :=
  match t.lbl with
  | .complete w _ => (lastAnswers tr w).all fun p => t.pre.items.rows.all fun r =>
      !ownedBy w r || AsksFor p.1 (p.2 r.id) (deliveries tr r.id)
  | _ => true

theorem enough_of_check {tr : List (Trans PState Act)}
    (h : ∀ i < tr.length, tr[i]?.all (enoughIn (tr.take i)) = true) :
    ∀ tr₁ t tr₂, tr = tr₁ ++ t :: tr₂ → Enough tr₁ t.pre t.lbl := by
  intro tr₁ t tr₂ he
  have hlen : tr₁.length < tr.length := by
    rw [he, List.length_append, List.length_cons]
    omega
  have ht := h tr₁.length hlen
  rw [he, List.take_left, List.getElem?_append_right (le_refl _), Nat.sub_self] at ht
  cases hl : t.lbl with
  | complete w n =>
    intro settings client hlast r hr ho
    have hrow : enoughIn tr₁ t = true := ht
    simp only [enoughIn, hl, hlast, Option.all_some, List.all_eq_true] at hrow
    simpa [ho] using hrow r hr
  | tick | bulkInsert | start | claim | renew | renewFails | processed | writePart | written | raise
  | crash => trivial

/-- The second worker calls the client once. -/
theorem attempts_drop : ∃ tr s, pool.Run tr s ∧ (∃ t ∈ tr, ¬ Grows t) ∧
    ∃ r ∈ s.items.rows, r.status.terminal = true ∧ r.attempts = 1 ∧ deliveries tr r.id = 2 := by
  obtain ⟨⟨tr, s⟩, he, hd, hq⟩ : ∃ p, LTS.exec step (.init 0) (redelivered (answer "one")) = some p ∧
      p.1.any (fun t => t.pre.items.rows.any fun r => t.post.items.rows.any fun r' =>
        r'.id = r.id ∧ r'.attempts < r.attempts) = true ∧
      p.2.items.rows.any (fun r => r.status.terminal = true ∧ r.attempts = 1 ∧
        deliveries p.1 r.id = 2) = true :=
    ⟨_, rfl, by decide +kernel, by decide +kernel⟩
  refine ⟨tr, s, ⟨_, ⟨0, rfl⟩, LTS.path_of_exec he⟩, ?_, ?_⟩
  · simp only [List.any_eq_true, decide_eq_true_eq] at hd
    obtain ⟨t, ht, r, hr, r', hr', hid, hlt⟩ := hd
    exact ⟨t, ht, fun hg => absurd (hg r hr r' hr' hid) (by omega)⟩
  · simp only [List.any_eq_true, decide_eq_true_eq] at hq
    exact hq

/-- The second worker calls the client twice. -/
theorem attempts_grow_twice : ∃ tr s, pool.Run tr s ∧
    ((∀ t ∈ tr, Grows t) ∧ ∀ r ∈ s.items.rows, r.status.terminal = true →
      (deliveries tr r.id : Int) ≤ r.attempts) ∧
    ∃ r ∈ s.items.rows, r.status = .succeeded ∧ r.attempts = 2 := by
  obtain ⟨⟨tr, s⟩, he, hen, hq⟩ : ∃ p, LTS.exec step (.init 0)
        (redelivered fun _ attempt => if attempt = 0 then .retryable "busy" else .success "one") =
          some p ∧
      (∀ i < p.1.length, p.1[i]?.all (enoughIn (p.1.take i)) = true) ∧
      p.2.items.rows.any (fun r => r.status = .succeeded ∧ r.attempts = 2) = true :=
    ⟨_, rfl, by decide +kernel, by decide +kernel⟩
  have hr : pool.Run tr s := ⟨_, ⟨0, rfl⟩, LTS.path_of_exec he⟩
  refine ⟨tr, s, hr, (attempts_grow_iff hr).mpr (enough_of_check hen), ?_⟩
  simpa only [List.any_eq_true, decide_eq_true_eq] using hq

end BatchSystem.Engine
