import BatchSystem.Engine.Fencing

/-!
# No queued work is lost

A row that is neither finished nor waiting is an item of the chunk that its
owner holds. While the owner runs it is at work on that chunk; if it stopped,
the lease of the row ends at most one lease period after that
(`leaseBound_reachable`), since nobody renews it any more. A worker that left
holds no chunk (`left_claiming`).
-/
namespace BatchSystem.Engine

open BatchSystem.Core Domain Queue Storage PState

/-- The last moment at which a worker with this life acted. -/
def Life.lastSeen (now : Int) : Life → Int
  | .running | .left => now
  | .raised since | .crashed since => since

/-- The task of the worker ended otherwise than by an empty claim. -/
def Life.stopped : Life → Bool
  | .raised _ | .crashed _ => true
  | .running | .left => false

section step
variable {s v : PState} {l : Act}

theorem now_next (hm : Move s l v) : s.now ≤ v.now := by
  cases hm with
  | tick d => simp only; omega
  | _ => exact Int.le_refl _

theorem lastSeen_next (hm : Move s l v) {x : WorkerId} {k k' : Worker}
    (hk : s.workers x = some k) (hk' : v.workers x = some k') :
    k'.settings = k.settings ∧ (k'.life.lastSeen v.now = k.life.lastSeen s.now ∨
      k.life.lastSeen s.now ≤ s.now ∧ s.now ≤ k'.life.lastSeen v.now) := by
  have hnow := now_next hm
  cases life_next hm hk' with
  | new hn =>
    rw [hk] at hn
    cases hn
  | same h =>
    obtain rfl := Option.some.inj (h.symm.trans hk)
    refine ⟨rfl, ?_⟩
    cases hl : k'.life with
    | running | left => exact .inr ⟨Int.le_refl _, hnow⟩
    | raised t | crashed t => exact .inl rfl
  | moved h hs hl hl' =>
    obtain rfl := Option.some.inj (h.symm.trans hk)
    rw [hl, hl']
    exact ⟨hs, .inr ⟨Int.le_refl _, hnow⟩⟩
  | left h hl _ _ _ he =>
    obtain rfl := Option.some.inj (h.symm.trans hk)
    rw [he, hl]
    exact ⟨rfl, .inr ⟨Int.le_refl _, hnow⟩⟩
  | stopped h hl hl' he =>
    obtain rfl := Option.some.inj (h.symm.trans hk)
    have hs := congrArg Worker.settings he
    refine ⟨hs, .inr ?_⟩
    rw [hl]
    refine ⟨Int.le_refl _, ?_⟩
    rcases hl' with hl' | hl' <;> rw [hl'] <;> exact Int.le_refl _

/-- A claimed row keeps its lease, or its owner has just written it. -/
theorem lease_next (hr : pool.Reachable s) (hm : Move s l v) {r : ItemRow} {w : WorkerId}
    {u : Int} (hc : (rowNext s l r).status = .claimed) (hw : (rowNext s l r).workerId = some w)
    (hu : (rowNext s l r).leaseUntil = some u) :
    (r.status = .claimed ∧ r.workerId = some w ∧ r.leaseUntil = some u) ∨
      ∃ k, s.workers w = some k ∧ k.life = .running ∧
        u = s.now + makeInterval k.settings.leaseTtlSeconds := by
  cases hm with
  | @leave x k cid hk hl | @claim x k cid chunk hk hl =>
    rw [rowNext_claim hk] at hc hw hu
    split at hw
    · rename_i hmem
      rw [if_pos hmem] at hu
      obtain rfl : x = w := Option.some.inj hw
      exact .inr ⟨k, hk, hl, (Option.some.inj hu).symm⟩
    · rename_i hmem
      rw [if_neg hmem] at hc hu
      exact .inl ⟨hc, hw, hu⟩
  | @renew x k cid chunk wake hk hl =>
    rw [rowNext_renew hk] at hc hw hu
    by_cases ho : ownedBy x r = true
    · rw [if_pos ho] at hc hw hu
      obtain rfl : x = w := Option.some.inj ((ownedBy_iff.mp ho).1.symm.trans hw)
      exact .inr ⟨k, hk, hl, (Option.some.inj hu).symm⟩
    · rw [if_neg ho] at hc hw hu
      exact .inl ⟨hc, hw, hu⟩
  | @complete x k cid chunk results ref hk hl hp =>
    rw [rowNext_complete hk hp] at hc hw hu
    unfold completeRow at hc hw hu
    split at hc
    · rename_i ho
      rw [if_pos ho] at hw hu
      cases hrec : recordFor results r with
      | none =>
        rw [hrec] at hc hw hu
        exact .inl ⟨hc, hw, hu⟩
      | some res =>
        have hres := (((books_reachable hr).held x k hk).results results (by rw [hp]; rfl)).2
        have ht := hres res (mem_recordFor hrec).1
        rw [hrec] at hc
        rw [show res.status = .claimed from hc] at ht
        cases ht
    · rename_i ho
      rw [if_neg ho] at hw hu
      exact .inl ⟨hc, hw, hu⟩
  | _ => exact .inl ⟨hc, hw, hu⟩

end step

/-! ## The invariants -/

/-- A lease ends at most one lease period after its owner was last seen. -/
def LeaseBound (s : PState) : Prop :=
  ∀ r ∈ s.items.rows, r.status = .claimed → ∀ w u k, r.workerId = some w →
    r.leaseUntil = some u → s.workers w = some k →
      u ≤ k.life.lastSeen s.now + makeInterval k.settings.leaseTtlSeconds

theorem leaseBound_step {s v : PState} {l : Act} (hr : pool.Reachable s) (h : LeaseBound s)
    (hst : pool.step s l v) : LeaseBound v := by
  intro r' hr' hc w u k' hw hu hk'
  have hm := move_of_step hst
  rcases (mem_next hr hst).mp hr' with ⟨r, hrow, rfl⟩ | hnew
  · rcases lease_next hr hm hc hw hu with ⟨h1, h2, h3⟩ | ⟨k, hk, hl, rfl⟩
    · obtain ⟨k, hk, -⟩ := (owners_reachable hr).holds r hrow h1 w h2
      have hle := h r hrow h1 w u k h2 h3 hk
      obtain ⟨hs, hseen | ⟨h4, h5⟩⟩ := lastSeen_next hm hk hk'
      · rw [hs, hseen]
        exact hle
      · rw [hs]
        omega
    · obtain ⟨hs, hseen | ⟨-, h5⟩⟩ := lastSeen_next hm hk hk'
      · rw [hs, hseen, hl]
        exact Int.le_refl _
      · rw [hs]
        omega
  · rw [(rowsNew_unclaimed hnew).workerId] at hw
    cases hw

theorem leaseBound_reachable {s : PState} (h : pool.Reachable s) : LeaseBound s := by
  refine h.induct (I := LeaseBound) ?_ fun s l v hr hi hst => leaseBound_step hr hi hst
  rintro _ ⟨now, rfl⟩ r hr
  cases hr

/-- A worker that left holds no chunk. -/
theorem left_claiming {s : PState} (h : pool.Reachable s) :
    ∀ w k, s.workers w = some k → k.life = .left → k.phase = .claiming := by
  refine h.induct (I := fun s => ∀ w k, s.workers w = some k → k.life = .left →
    k.phase = .claiming) ?_ ?_
  · rintro _ ⟨now, rfl⟩ w k hk
    cases hk
  · intro s l v _ ih hst w k' hk' hlife
    cases life_next (move_of_step hst) hk' with
    | new _ hp => exact hp
    | same hk => exact ih w k' hk hlife
    | moved _ _ _ hl' =>
      rw [hlife] at hl'
      cases hl'
    | left _ _ _ hp _ he =>
      rw [he]
      exact hp
    | stopped _ _ hl' =>
      rw [hlife] at hl'
      rcases hl' with hl' | hl' <;> cases hl'

/-! ## Headline -/

/-- Where a CLAIMED row is: in the chunk that its owner is working on, or with an
owner that stopped, under a lease of at most one period from there. -/
structure InHands (s : PState) (r : ItemRow) (w : WorkerId) (u : Int) : Prop where
  worker : r.workerId = some w
  lease : r.leaseUntil = some u
  owner : ∃ k, s.workers w = some k ∧ k.job = r.jobId ∧ (∃ c ∈ k.phase.chunk, c.id = r.id) ∧
    (k.life = .running ∨ k.life.stopped = true ∧
      u ≤ k.life.lastSeen s.now + makeInterval k.settings.leaseTtlSeconds)

theorem inHands {s : PState} (h : pool.Reachable s) {r : ItemRow} (hr : r ∈ s.items.rows)
    (hc : r.status = .claimed) : ∃ w u, InHands s r w u := by
  obtain ⟨hw, hu⟩ := (rowOk_reachable (queue_reachable h) r hr).claimed hc
  obtain ⟨w, hw⟩ := Option.ne_none_iff_exists'.mp hw
  obtain ⟨u, hu⟩ := Option.ne_none_iff_exists'.mp hu
  obtain ⟨k, hk, hj, c, hcm, hid⟩ := (owners_reachable h).holds r hr hc w hw
  refine ⟨w, u, hw, hu, k, hk, hj, ⟨c, hcm, hid⟩, ?_⟩
  have hle := leaseBound_reachable h r hr hc w u k hw hu hk
  cases hl : k.life with
  | running => exact .inl rfl
  | left =>
    rw [left_claiming h w k hk hl] at hcm
    cases hcm
  | raised t | crashed t =>
    rw [hl] at hle
    exact .inr ⟨rfl, hle⟩

/-- A row whose owner stopped is claimable once a lease period has passed. -/
theorem claimable_after {s : PState} {r : ItemRow} {w : WorkerId} {u : Int} {k : Worker}
    (hc : r.status = .claimed) (h : InHands s r w u) (hk : s.workers w = some k)
    (hl : k.life.stopped = true) {now : Int}
    (hnow : k.life.lastSeen s.now + makeInterval k.settings.leaseTtlSeconds < now) :
    claimable r.jobId now r = true := by
  obtain ⟨k', hk', -, -, hrun | ⟨-, hle⟩⟩ := h.owner
  · obtain rfl := Option.some.inj (hk'.symm.trans hk)
    rw [hrun] at hl
    cases hl
  · obtain rfl := Option.some.inj (hk'.symm.trans hk)
    refine claimable_iff.mpr ⟨rfl, .inr ⟨hc, ?_⟩⟩
    simp only [leaseExpired, h.lease, decide_eq_true_eq]
    omega

/-- A renewal prolongs rows of the chunk in processing only. -/
theorem renewed_in_chunk {s v : PState} (h : pool.Reachable s) {w : WorkerId}
    (hst : pool.step s (.renew w) v) : ∃ k cid chunk wake, s.workers w = some k ∧
      k.life = .running ∧ k.phase = .processing cid chunk (.sleeping wake) ∧
      ∀ r ∈ s.items.rows, rowNext s (.renew w) r ≠ r → ∃ c ∈ chunk, c.id = r.id := by
  cases move_of_step hst with
  | @renew _ k cid chunk wake hk hl hp =>
    refine ⟨k, cid, chunk, wake, hk, hl, hp, fun r hr hne => ?_⟩
    rw [rowNext_renew hk] at hne
    have ho : ownedBy w r = true := by
      by_contra hno
      exact hne (if_neg hno)
    obtain ⟨-, c, hc, hid, -⟩ := owned_item h hk hr ho
    rw [hp] at hc
    exact ⟨c, hc, hid⟩

/-- **No queued work is lost.** A row is finished, waits, or is in hands; a renewal
prolongs only what its worker is processing; and a row whose owner stopped is
claimable again after one lease period. -/
theorem queued_work_kept {s : PState} (h : pool.Reachable s) :
    (∀ r ∈ s.items.rows, r.status.terminal = true ∨ r.status = .pending ∨
      r.status = .claimed ∧ ∃ w u, InHands s r w u) ∧
    (∀ w v, pool.step s (.renew w) v → ∃ k cid chunk wake, s.workers w = some k ∧
      k.life = .running ∧ k.phase = .processing cid chunk (.sleeping wake) ∧
      ∀ r ∈ s.items.rows, rowNext s (.renew w) r ≠ r → ∃ c ∈ chunk, c.id = r.id) ∧
    ∀ r ∈ s.items.rows, r.status = .claimed → ∀ w k, r.workerId = some w →
      s.workers w = some k → k.life.stopped = true → ∀ now,
        k.life.lastSeen s.now + makeInterval k.settings.leaseTtlSeconds < now →
          claimable r.jobId now r = true := by
  refine ⟨fun r hr => ?_, fun w v hst => renewed_in_chunk h hst,
    fun r hr hc w k hw hk hl now hnow => ?_⟩
  · cases hs : r.status with
    | pending => exact .inr (.inl rfl)
    | claimed => exact .inr (.inr ⟨rfl, inHands h hr hs⟩)
    | succeeded | failed => exact .inl rfl
  · obtain ⟨w', u, hin⟩ := inHands h hr hc
    obtain rfl := Option.some.inj (hin.worker.symm.trans hw)
    exact claimable_after hc hin hk hl hnow

/-! ## Non-vacuity -/

/-- The process of `w1` dies with its row claimed. -/
def crashRun : List Act :=
  [.bulkInsert "j" [⟨"a", "hi"⟩] [], .start ["w1"] "j" {}, .claim "w1" chunk1 [⟨1, "a", "hi", 1⟩],
    .crash ["w1"]]

/-- The row can be claimed again 120 seconds later. -/
theorem queued_work_kept_crash : ∃ s, pool.Reachable s ∧ ∃ r ∈ s.items.rows,
    r.status = .claimed ∧ claimable r.jobId 120000001 r = true := by
  obtain ⟨⟨tr, s⟩, he, hw, hs⟩ : ∃ p, LTS.exec step (.init 0) crashRun = some p ∧
      p.2.workers "w1" = some ⟨"j", {}, .processing chunk1 [⟨1, "a", "hi", 1⟩]
        (.sleeping 30000000), .crashed 0⟩ ∧
      p.2.items.rows.any (fun r => r.status = .claimed ∧ r.workerId = some "w1") = true :=
    ⟨_, rfl, rfl, by decide⟩
  have hr : pool.Reachable s := ⟨tr, _, ⟨0, rfl⟩, LTS.path_of_exec he⟩
  obtain ⟨r, hrow, hp⟩ := List.any_eq_true.mp hs
  obtain ⟨hst, hwr⟩ := of_decide_eq_true hp
  have hperiod : (0 : Int) + makeInterval 120 < 120000001 := by decide
  exact ⟨s, hr, r, hrow, hst,
    (queued_work_kept hr).2.2 r hrow hst "w1" _ hwr hw rfl 120000001 hperiod⟩

end BatchSystem.Engine
