import BatchSystem.Core.Lists
import BatchSystem.Engine.Contents

/-!
# One new worker finishes the job

Whatever state the pool is in, with crashed workers and rows under their leases:
once the leases have run out, one new process with one worker, which is what
`workers/run_worker.py` starts, can take every unfinished row of a job to its
outcome, without any step of another worker.

* `round`: a chunk from its claim to its completion.
* `recoverable`: from every reachable state such a worker reaches a state in
  which each unfinished row of the job has the outcome that `_process_row`
  computes for it, and no other row has changed.
-/
namespace BatchSystem.Engine

open BatchSystem.Core Domain Queue Storage PState

/-- A step of worker `w` through its loop, without a failure. -/
def Act.loops (w : WorkerId) : Act → Bool
  | .claim x _ _ | .processed x _ _ | .written x | .complete x _ => x = w
  | _ => false

/-- Time passes, or worker `w` starts or goes through its loop. -/
def Act.alone (w : WorkerId) (a : Act) : Prop :=
  (∃ d, a = .tick d) ∨ (∃ job settings, a = .start [w] job settings) ∨ a.loops w = true

/-- The row has the outcome of `_process_row`. -/
structure Processed (settings : Settings) (client : Nat → Nat → Outcome) (r r' : ItemRow) :
    Prop where
  key : r.SameKey r'
  outcome : ∃ latencyMs, let res := (processRow settings (claimedItem r) (client r.id) latencyMs).1
    r'.status = res.status ∧ r'.error = res.error ∧ r'.attempts = res.attempts
  stored : r'.resultRef ≠ none

section rounds
variable {s : PState} {w : WorkerId} {job : JobId} {settings : Settings}
  {client : Nat → Nat → Outcome}

theorem Processed.terminal {r r' : ItemRow} (h : Processed settings client r r') :
    r'.status.terminal = true := by
  obtain ⟨lat, hs, -⟩ := h.outcome
  rw [hs]
  exact processRow_terminal settings _ _ _

/-- The record of an item of the chunk. -/
theorem recordFor_processChunk {chunk : List ClaimedItem} {latencyMs : Nat → Int}
    (hn : (chunk.map (·.externalId)).Nodup) {c : ClaimedItem} (hc : c ∈ chunk) {r : ItemRow}
    (he : c.externalId = r.externalId) :
    recordFor (processChunk settings chunk client latencyMs) r =
      some (processRow settings c (client c.id) (latencyMs c.id)).1 := by
  have hids := processChunk_ids settings chunk client latencyMs
  have hmem : (processRow settings c (client c.id) (latencyMs c.id)).1 ∈
      processChunk settings chunk client latencyMs := List.mem_map_of_mem hc
  have hid := processRow_externalId settings c (client c.id) (latencyMs c.id)
  have hsome : (recordFor (processChunk settings chunk client latencyMs) r).isSome = true := by
    refine List.find?_isSome.mpr ⟨_, hmem, ?_⟩
    rw [hid, he]
    exact beq_self_eq_true _
  obtain ⟨res, hres⟩ := Option.isSome_iff_exists.mp hsome
  obtain ⟨hin, hext⟩ := mem_recordFor hres
  have heq := List.inj_on_of_nodup_map (hids ▸ hn) hin hmem (by rw [hext, hid, he])
  rw [hres, heq]

/-! ## A chunk -/

theorem rowsNew_loops {a : Act} (h : a.loops w = true) : rowsNew s a = [] := by
  refine List.eq_nil_iff_forall_not_mem.mpr fun r hr => ?_
  obtain ⟨items, failed, rfl⟩ := rowsNew_job hr
  cases h

section steps
variable {k : Worker} {cid : ChunkId} {chunk : List ClaimedItem} (hk : s.workers w = some k)
  (hl : k.life = .running)
include hk hl

theorem processed_possible {wake : Int} (hp : k.phase = .processing cid chunk (.sleeping wake))
    (client : Nat → Nat → Outcome) (latencyMs : Nat → Int) :
    pool.step s (.processed w client latencyMs)
      (s.setPhase w k (.writing cid chunk (processChunk k.settings chunk client latencyMs))) := by
  show step s _ = _
  simp only [step, running_iff.mpr ⟨hk, hl⟩, Option.bind_some, hp]

theorem written_possible {results : List ResultRecord} (hp : k.phase = .writing cid chunk results) :
    pool.step s (.written w)
      ({ s with files := (writeChunk s.files k.job cid results).1 }.setPhase w k
        (.completing cid chunk results (chunkRef k.job cid))) := by
  show step s _ = _
  simp only [step, running_iff.mpr ⟨hk, hl⟩, Option.bind_some, hp]
  rfl

theorem complete_possible {results : List ResultRecord} {ref : String}
    (hp : k.phase = .completing cid chunk results ref) :
    pool.step s (.complete w (completeItems s.items w ref results).2)
      ({ s with items := (completeItems s.items w ref results).1 }.setPhase w k .claiming) := by
  show step s _ = _
  simp only [step, running_iff.mpr ⟨hk, hl⟩, Option.bind_some, hp, if_true]

end steps

/-- From the answers of the client to the completion of the chunk. -/
theorem chunk_done (hr : pool.Reachable s) (client : Nat → Nat → Outcome) {cid : ChunkId}
    {chunk : List ClaimedItem} {wake : Int}
    (hk : s.workers w = some ⟨job, settings, .processing cid chunk (.sleeping wake), .running⟩) :
    ∃ tr v, pool.Path s tr v ∧ (∀ t ∈ tr, t.lbl.loops w = true) ∧ v.now = s.now ∧
      v.workers w = some { job, settings } ∧
      v.items.rows = s.items.rows.map (completeRow w (chunkRef job cid)
        (processChunk settings chunk client fun _ => 0)) := by
  obtain ⟨p, hst₁, hk₁, hi₁, hn₁⟩ : ∃ p, pool.step s (.processed w client fun _ => 0) p ∧
      p.workers w = some ⟨job, settings,
        .writing cid chunk (processChunk settings chunk client fun _ => 0), .running⟩ ∧
      p.items = s.items ∧ p.now = s.now :=
    ⟨_, processed_possible hk rfl rfl client _, setWorker_same _ _ _, rfl, rfl⟩
  obtain ⟨q, hst₂, hk₂, hi₂, hn₂⟩ : ∃ q, pool.step p (.written w) q ∧
      q.workers w = some ⟨job, settings,
        .completing cid chunk (processChunk settings chunk client fun _ => 0)
          (chunkRef job cid), .running⟩ ∧
      q.items = p.items ∧ q.now = p.now :=
    ⟨_, written_possible hk₁ rfl rfl, setWorker_same _ _ _, rfl, rfl⟩
  obtain ⟨n, v, hst₃, hk₃, hn₃⟩ : ∃ n v, pool.step q (.complete w n) v ∧
      v.workers w = some { job, settings } ∧ v.now = q.now :=
    ⟨_, _, complete_possible hk₂ rfl rfl, setWorker_same _ _ _, rfl⟩
  refine ⟨_, v, ((LTS.Path.single hst₁).snoc hst₂).snoc hst₃, by simp [Act.loops],
    hn₃.trans (hn₂.trans hn₁), hk₃, ?_⟩
  rw [step_rows ((hr.step hst₁).step hst₂) hst₃, hi₂, hi₁,
    rowsNew_loops (w := w) (by simp [Act.loops]), List.append_nil]
  exact List.map_congr_left fun r _ => rowNext_complete hk₂ rfl n r

/-- A worker without a chunk owns no row. -/
theorem not_owned_claiming (hr : pool.Reachable s) {k : Worker} (hk : s.workers w = some k)
    (hp : k.phase = .claiming) {r : ItemRow} (hrow : r ∈ s.items.rows) : ownedBy w r = false := by
  by_contra ho
  obtain ⟨-, c, hc, -⟩ := owned_item hr hk hrow (Bool.eq_true_of_not_eq_false ho)
  rw [hp] at hc
  cases hc

/-- What a claim and the completion of its chunk make of a row. -/
theorem processed_row {chunk : List ClaimedItem} {latencyMs : Nat → Int} {lease : Int}
    {ref : String} (hn : (chunk.map (·.externalId)).Nodup) {r : ItemRow}
    (hc : claimedItem r ∈ chunk) :
    Processed settings client r
      (completeRow w ref (processChunk settings chunk client latencyMs) (claimRow w lease r)) := by
  have ho : ownedBy w (claimRow w lease r) = true := ownedBy_iff.mpr ⟨rfl, rfl⟩
  have hrec : recordFor (processChunk settings chunk client latencyMs) (claimRow w lease r) =
      some (processRow settings (claimedItem r) (client r.id) (latencyMs r.id)).1 :=
    recordFor_processChunk hn hc rfl
  rw [completeRow, if_pos ho, hrec]
  exact ⟨(claimRow_keeps w lease r).trans (finishRow_keeps _ ref _), ⟨_, rfl, rfl, rfl⟩,
    by simp [finishRow]⟩

/-- After a claim that returned rows. -/
theorem claim_taken {p : PState} {k : Worker} {cid : ChunkId} {chunk : List ClaimedItem}
    (hst : pool.step s (.claim w cid chunk) p) (hk : s.workers w = some k) (hne : chunk ≠ []) :
    p.now = s.now ∧ ∃ wake, p.workers w =
      some { k with phase := .processing cid chunk (.sleeping wake) } := by
  cases move_of_step hst with
  | leave => exact absurd rfl hne
  | claim hk₁ =>
    obtain rfl := Option.some.inj (hk₁.symm.trans hk)
    exact ⟨rfl, _, setWorker_same _ _ _⟩

theorem round (hr : pool.Reachable s) (hk : s.workers w = some { job, settings })
    (hne : claimed s.items job settings.chunkSize s.now ≠ []) (client : Nat → Nat → Outcome) :
    ∃ tr v, pool.Path s tr v ∧ (∀ t ∈ tr, t.lbl.loops w = true) ∧ v.now = s.now ∧
      v.workers w = some { job, settings } ∧
      List.Forall₂ (fun r r' => if r ∈ claimed s.items job settings.chunkSize s.now then
        Processed settings client r r' else r' = r) s.items.rows v.items.rows := by
  obtain ⟨cid, p, hst₁⟩ := claim_possible hk rfl rfl
  generalize hch : (claimChunk s.items s.now job w settings.chunkSize
    settings.leaseTtlSeconds).2 = chunk at hst₁
  rw [claimChunk_chunk] at hch
  have hchunk : chunk ≠ [] := by
    rw [← hch]
    simpa using hne
  obtain ⟨hnow, wake, hk₁⟩ := claim_taken hst₁ hk hchunk
  obtain ⟨tr, v, hp, hloops, hnow', hk', hrows⟩ :=
    chunk_done (hr.step hst₁) client hk₁
  refine ⟨_, v, .cons hst₁ hp, ?_, hnow'.trans hnow, hk', ?_⟩
  · simpa [Act.loops] using hloops
  · -- the chunk has distinct external ids, which the table gives
    have hn := chunk_externalIds_nodup (hr.step hst₁) hk₁
    rw [hrows, step_rows hr hst₁, rowsNew_loops (w := w) (by simp [Act.loops]), List.append_nil,
      List.map_map, List.forall₂_map_right_iff]
    refine List.forall₂_same.mpr fun r hrow => ?_
    rw [Function.comp_apply, rowNext_claim hk]
    split
    · rename_i hin
      refine processed_row hn ?_
      rw [← hch]
      exact List.mem_map_of_mem hin
    · exact completeRow_of_not_owned (not_owned_claiming hr hk rfl hrow) _ _

/-! ## Chunk after chunk -/

/-- The rows that a worker alone changes, all of them to the end. -/
def Drained (job : JobId) (settings : Settings) (client : Nat → Nat → Outcome) (now : Int)
    (r r' : ItemRow) : Prop :=
  if claimable job now r then Processed settings client r r' else r' = r

theorem round_claimable {size : Nat} {now : Int} {t : PromptItems} {r r' : ItemRow}
    (h : if r ∈ claimed t job size now then Processed settings client r r' else r' = r) :
    Drained job settings client now r r' ∨ r' = r := by
  split at h
  · rename_i hin
    exact .inl (by rw [Drained, if_pos (mem_claimed hin).2]; exact h)
  · exact .inr h

theorem Drained.keeps {now : Int} {r r' : ItemRow} (h : Drained job settings client now r r') :
    claimable job now r' = false := by
  unfold Drained at h
  split at h
  · have ht := h.terminal
    cases hc : claimable job now r' with
    | false => rfl
    | true =>
      rw [not_terminal_of_claimable hc] at ht
      cases ht
  · rename_i hno
    rw [h]
    exact Bool.eq_false_of_not_eq_true hno

theorem leaves (hk : s.workers w = some { job, settings })
    (he : claimed s.items job settings.chunkSize s.now = []) :
    ∃ cid v, pool.step s (.claim w cid []) v ∧ (∃ k, v.workers w = some k ∧ k.life = .left) ∧
      v.items = s.items ∧ v.now = s.now := by
  obtain ⟨cid, v, hst⟩ := claim_possible hk rfl rfl
  simp only [claimChunk_chunk, he, List.map_nil] at hst
  refine ⟨cid, v, hst, ?_⟩
  cases move_of_step hst with
  | leave => exact ⟨⟨_, setWorker_same _ _ _, rfl⟩, rfl, rfl⟩
  | claim _ _ _ hne => exact absurd rfl hne

theorem drains (hsize : 1 ≤ settings.chunkSize) (client : Nat → Nat → Outcome)
    (hr : pool.Reachable s) (hk : s.workers w = some { job, settings }) :
    ∃ tr v, pool.Path s tr v ∧ (∀ t ∈ tr, t.lbl.loops w = true) ∧ v.now = s.now ∧
      (∃ k, v.workers w = some k ∧ k.life = .left) ∧
      List.Forall₂ (Drained job settings client s.now) s.items.rows v.items.rows := by
  -- by induction on the rows that are left
  generalize hn : s.items.rows.countP (claimable job s.now) = n
  induction n using Nat.strongRecOn generalizing s with
  | ind n ih =>
    by_cases hne : claimed s.items job settings.chunkSize s.now = []
    · obtain ⟨cid, v, hst, hleft, hitems, hnow⟩ := leaves hk hne
      refine ⟨_, v, .single hst, by simp [Act.loops], hnow, hleft, ?_⟩
      rw [hitems]
      refine List.forall₂_same.mpr fun r hrow => ?_
      rw [Drained, (claimed_eq_nil hsize).mp hne r hrow, if_neg Bool.false_ne_true]
    · obtain ⟨tr, u, hp, hloops, hnow, hk', hrows⟩ := round hr hk hne client
      have hlt : u.items.rows.countP (claimable job u.now) <
          s.items.rows.countP (claimable job s.now) := by
        rw [hnow]
        refine countP_lt_of_forall₂ hrows (fun r r' h hc => ?_) ?_
        · rcases round_claimable h with h | rfl
          · rw [h.keeps] at hc
            cases hc
          · exact hc
        · obtain ⟨r, hin⟩ := List.exists_mem_of_ne_nil _ hne
          obtain ⟨hrow, hc⟩ := mem_claimed hin
          refine ⟨r, hrow, hc, fun r' h => ?_⟩
          rw [if_pos hin] at h
          have hd : Drained job settings client s.now r r' := by
            rw [Drained, if_pos hc]
            exact h
          exact hd.keeps
      obtain ⟨tr', v, hp', hloops', hnow', hleft, hrows'⟩ := ih _ (hn ▸ hlt) (hr.path hp) hk' rfl
      refine ⟨_, v, hp.append hp', ?_, hnow'.trans hnow, hleft, ?_⟩
      · intro t ht
        exact (List.mem_append.mp ht).elim (hloops t) (hloops' t)
      · rw [hnow] at hrows'
        refine forall₂_comp hrows hrows' fun r r₁ r₂ h₁ h₂ => ?_
        rcases round_claimable h₁ with h | rfl
        · rw [Drained, h.keeps, if_neg Bool.false_ne_true] at h₂
          rw [h₂]
          exact h
        · exact h₂

/-! ## A crew -/

/-- The loop of one worker does not touch the others. -/
theorem loops_others {v : PState} {tr : List (Trans PState Act)} (hp : pool.Path s tr v)
    (hl : ∀ t ∈ tr, t.lbl.loops w = true) {x : WorkerId} (hx : x ≠ w) :
    v.workers x = s.workers x := by
  induction hp with
  | nil => rfl
  | @snoc tr u v l hp hst ih =>
    rw [← ih fun t ht => hl t (List.mem_append_left _ ht)]
    have hlw := hl _ (List.mem_append_right _ List.mem_cons_self)
    cases move_of_step hst with
    | leave | claim | processed | dropped | written | complete =>
      obtain rfl := of_decide_eq_true hlw
      exact setWorker_ne hx _
    | _ => cases hlw

/-- When nothing is left to claim, one worker after another returns. -/
theorem leave_all {ws : List WorkerId} (hr : pool.Reachable s) (hn : ws.Nodup)
    (hws : ∀ w ∈ ws, s.workers w = some { job, settings })
    (he : claimed s.items job settings.chunkSize s.now = []) :
    ∃ tr v, pool.Path s tr v ∧ (∀ t ∈ tr, ∃ w ∈ ws, t.lbl.loops w = true) ∧
      v.items = s.items ∧ (∀ w ∈ ws, ∃ k, v.workers w = some k ∧ k.life = .left) ∧
      ∀ x, x ∉ ws → v.workers x = s.workers x := by
  induction ws generalizing s with
  | nil => exact ⟨[], s, .nil, by simp, rfl, by simp, fun _ _ => rfl⟩
  | cons w rest ih =>
    obtain ⟨hnot, hn⟩ := List.nodup_cons.mp hn
    obtain ⟨cid, u, hst, hleft, hitems, hnow⟩ := leaves (hws w List.mem_cons_self) he
    have hsingle : ∀ t ∈ [(⟨s, .claim w cid [], u⟩ : Trans PState Act)], t.lbl.loops w = true := by
      simp [Act.loops]
    have hkept : ∀ x, x ≠ w → u.workers x = s.workers x := fun x hx =>
      loops_others (.single hst) hsingle hx
    obtain ⟨tr, v, hp, hl, hi, hall, hout⟩ := ih (hr.step hst) hn
      (fun x hx => (hkept x fun e => hnot (e ▸ hx)).trans (hws x (List.mem_cons_of_mem _ hx)))
      (by rw [hitems, hnow]; exact he)
    refine ⟨_, v, .cons hst hp, fun t ht => ?_, hi.trans hitems, fun x hx => ?_, fun x hx => ?_⟩
    · rcases List.mem_cons.mp ht with rfl | ht
      · exact ⟨w, List.mem_cons_self, hsingle _ List.mem_cons_self⟩
      · obtain ⟨x, hx, h⟩ := hl t ht
        exact ⟨x, List.mem_cons_of_mem _ hx, h⟩
    · rcases List.mem_cons.mp hx with rfl | hx
      · rw [hout x hnot]
        exact hleft
      · exact hall x hx
    · rw [List.mem_cons, not_or] at hx
      rw [hout x hx.2, hkept x hx.1]

/-- A new crew, one of whose workers does all the work. -/
theorem crew_drains {ws : List WorkerId} (hsize : 1 ≤ settings.chunkSize)
    (client : Nat → Nat → Outcome) (hr : pool.Reachable s) (hne : ws ≠ []) (hn : ws.Nodup)
    (hws : ∀ w ∈ ws, s.workers w = some { job, settings }) :
    ∃ tr v, pool.Path s tr v ∧ (∀ t ∈ tr, ∃ w ∈ ws, t.lbl.loops w = true) ∧
      (∀ w ∈ ws, ∃ k, v.workers w = some k ∧ k.life = .left) ∧
      List.Forall₂ (Drained job settings client s.now) s.items.rows v.items.rows := by
  obtain ⟨w, rest, rfl⟩ := List.exists_cons_of_ne_nil hne
  obtain ⟨hnot, hn⟩ := List.nodup_cons.mp hn
  obtain ⟨tr, u, hp, hl, hnow, hleft, hrows⟩ :=
    drains hsize client hr (hws w List.mem_cons_self)
  have hnone : claimed u.items job settings.chunkSize u.now = [] := by
    refine (claimed_eq_nil hsize).mpr fun r hrow => ?_
    obtain ⟨r₀, -, h⟩ := forall₂_mem_right hrows hrow
    rw [hnow]
    exact h.keeps
  have hkept : ∀ x, x ≠ w → u.workers x = s.workers x := fun x hx => loops_others hp hl hx
  obtain ⟨tr', v, hp', hl', hi, hall, hout⟩ := leave_all (hr.path hp) hn
    (fun x hx => (hkept x fun e => hnot (e ▸ hx)).trans (hws x (List.mem_cons_of_mem _ hx))) hnone
  refine ⟨_, v, hp.append hp', fun t ht => ?_, fun x hx => ?_, by rw [hi]; exact hrows⟩
  · rcases List.mem_append.mp ht with ht | ht
    · exact ⟨w, List.mem_cons_self, hl t ht⟩
    · obtain ⟨x, hx, h⟩ := hl' t ht
      exact ⟨x, List.mem_cons_of_mem _ hx, h⟩
  · rcases List.mem_cons.mp hx with rfl | hx
    · rw [hout x hnot]
      exact hleft
    · exact hall x hx

/-! ## From any state -/

/-- After some time no lease is good. -/
theorem exists_late (rows : List ItemRow) (now : Int) :
    ∃ d : Nat, ∀ r ∈ rows, ∀ u, r.leaseUntil = some u → u < now + d := by
  induction rows with
  | nil => exact ⟨0, fun r hr => by cases hr⟩
  | cons r rest ih =>
    obtain ⟨d, hd⟩ := ih
    cases hu : r.leaseUntil with
    | none =>
      refine ⟨d, fun r' hr' u hu' => ?_⟩
      rcases List.mem_cons.mp hr' with rfl | hr'
      · rw [hu] at hu'
        cases hu'
      · exact hd r' hr' u hu'
    | some u₀ =>
      refine ⟨d + (u₀ - now).toNat + 1, fun r' hr' u hu' => ?_⟩
      rcases List.mem_cons.mp hr' with rfl | hr'
      · rw [hu] at hu'
        cases hu'
        omega
      · have := hd r' hr' u hu'
        omega

/-- When no lease is good, every unfinished row can be claimed. -/
theorem claimable_late {now : Int} {r : ItemRow} (hok : RowOk r)
    (hlate : ∀ u, r.leaseUntil = some u → u < now) :
    claimable job now r = true ↔ r.jobId = job ∧ r.status.terminal = false := by
  constructor
  · intro hc
    exact ⟨(claimable_iff.mp hc).1, not_terminal_of_claimable hc⟩
  · rintro ⟨hj, ht⟩
    refine claimable_iff.mpr ⟨hj, ?_⟩
    cases hs : r.status with
    | pending => exact .inl rfl
    | claimed =>
      obtain ⟨u, hu⟩ := Option.ne_none_iff_exists'.mp (hok.claimed hs).2
      refine .inr ⟨rfl, ?_⟩
      simp only [leaseExpired, hu, decide_eq_true_eq]
      exact hlate u hu
    | succeeded | failed =>
      rw [hs] at ht
      cases ht

/-- **Nothing is lost for good.** From every reachable state, whatever workers
have crashed and whatever leases they hold, a new worker alone can finish the
job: some time passes, the worker starts, and after its last claim each
unfinished row of the job has the outcome that `_process_row` computes for it,
all other rows being as they were. -/
theorem recoverable (hr : pool.Reachable s) (hw : s.workers w = none) (job : JobId)
    (hsize : 1 ≤ settings.chunkSize) (client : Nat → Nat → Outcome) :
    ∃ tr v, pool.Path s tr v ∧ (∀ t ∈ tr, t.lbl.alone w) ∧
      (∃ k, v.workers w = some k ∧ k.life = .left) ∧
      List.Forall₂ (fun r r' => if r.jobId = job ∧ r.status.terminal = false then
        Processed settings client r r' else r' = r) s.items.rows v.items.rows := by
  obtain ⟨d, hd⟩ := exists_late s.items.rows s.now
  obtain ⟨p, hst₁, hw₁, hi₁, hn₁⟩ : ∃ p, pool.step s (.tick d) p ∧ p.workers w = none ∧
      p.items = s.items ∧ p.now = s.now + d := ⟨_, rfl, hw, rfl, rfl⟩
  obtain ⟨q, hst₂, hk, hi₂, hn₂⟩ : ∃ q, pool.step p (.start [w] job settings) q ∧
      q.workers w = some { job, settings } ∧ q.items = p.items ∧ q.now = p.now := by
    refine ⟨_, if_pos fun x hx => ?_, if_pos List.mem_cons_self, rfl, rfl⟩
    rw [List.mem_singleton.mp hx]
    exact hw₁
  obtain ⟨tr, v, hp, hloops, -, hleft, hrows⟩ :=
    drains hsize client ((hr.step hst₁).step hst₂) hk
  refine ⟨_, v, .cons hst₁ (.cons hst₂ hp), ?_, hleft, ?_⟩
  · intro t ht
    rcases List.mem_cons.mp ht with rfl | ht
    · exact .inl ⟨d, rfl⟩
    · rcases List.mem_cons.mp ht with rfl | ht
      · exact .inr (.inl ⟨job, settings, rfl⟩)
      · exact .inr (.inr (hloops t ht))
  · rw [hi₂, hi₁, hn₂, hn₁] at hrows
    refine forall₂_imp_mem hrows fun r hrow r' _ h => ?_
    have hiff : claimable job (s.now + d) r = true ↔ r.jobId = job ∧ r.status.terminal = false :=
      claimable_late (rowOk_reachable (queue_reachable hr) r hrow) (hd r hrow)
    unfold Drained at h
    split
    · rename_i hopen
      rwa [if_pos (hiff.mpr hopen)] at h
    · rename_i hdone
      rwa [if_neg fun hc => hdone (hiff.mp hc)] at h

end rounds

/-! ## Non-vacuity -/

/-- A worker crashes in the middle of its chunk. -/
def abandonedRun (cid : ChunkId) : List Act :=
  [.bulkInsert "j" [⟨"a", "hi"⟩, ⟨"b", "ho"⟩] [], .start ["w1"] "j" {},
    .claim "w1" cid [⟨1, "a", "hi", 1⟩, ⟨2, "b", "ho", 1⟩], .tick 5000000, .crash ["w1"]]

theorem recoverable_abandoned : ∃ s tr v, pool.Reachable s ∧
    s.items.rows.map (·.status) = [.claimed, .claimed] ∧ pool.Path s tr v ∧
      ∀ r ∈ v.items.rows, r.status.terminal = true := by
  obtain ⟨⟨tr, s⟩, he, hst, hw, hj⟩ : ∃ p,
      LTS.exec step (.init 0) (abandonedRun ⟨"c1", by simp⟩) = some p ∧
      p.2.items.rows.map (·.status) = [.claimed, .claimed] ∧ p.2.workers "w2" = none ∧
      p.2.items.rows.all (fun r => r.jobId == "j") = true :=
    ⟨_, rfl, rfl, rfl, rfl⟩
  have hr : pool.Reachable s := ⟨tr, _, ⟨0, rfl⟩, LTS.path_of_exec he⟩
  have hsize : 1 ≤ ({} : Settings).chunkSize := by decide
  obtain ⟨tr', v, hp, -, -, hrows⟩ := recoverable hr hw "j" hsize fun _ _ => .success "ok"
  refine ⟨s, tr', v, hr, hst, hp, fun r' hr' => ?_⟩
  obtain ⟨r, hrow, h⟩ := forall₂_mem_right hrows hr'
  have hjob : r.jobId = "j" := by simpa using List.all_eq_true.mp hj r hrow
  have hopen : r.status.terminal = false := by
    have hmem : r.status ∈ s.items.rows.map (·.status) := List.mem_map_of_mem hrow
    rw [hst] at hmem
    simp only [List.mem_cons, List.not_mem_nil, or_false, or_self] at hmem
    rw [hmem]
    rfl
  rw [if_pos ⟨hjob, hopen⟩] at h
  exact h.terminal

end BatchSystem.Engine
