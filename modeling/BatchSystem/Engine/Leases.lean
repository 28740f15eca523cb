import BatchSystem.Engine.Fencing

/-!
# Leases between claim and commit

The heartbeat renews a chunk's leases while its rows are processed, and ends
before `write_chunk`. `Punctual` is what may be assumed of time: the heartbeat
interval is below the lease, a heartbeat wakes on time and its renewal succeeds.
From the end of the heartbeat on nothing renews the leases, so a slow write
loses the chunk (`live_loses_chunk`).

`Covered` adds that no lease runs out while a living worker writes or
completes; then every item of a living worker's chunk stays under its lease
(`holdsAll_reachable`) and nobody else can claim it (`live_keeps_chunk`).
-/
namespace BatchSystem.Engine

open BatchSystem.Core Domain Queue Storage PState

/-! ## Time -/

/-- No running heartbeat sleeps past its wake time. -/
def OnTime (s : PState) (d : Nat) : Prop :=
  ∀ w k, s.workers w = some k → k.life = .running → ∀ cid chunk wake,
    k.phase = .processing cid chunk (.sleeping wake) → s.now + d ≤ max s.now wake

/-- No lease runs out while its living owner writes or completes. -/
def InLease (s : PState) (d : Nat) : Prop :=
  ∀ w k, s.workers w = some k → k.life = .running → k.phase.results.isSome = true →
    ∀ r ∈ s.items.rows, ownedBy w r = true → ∀ u, r.leaseUntil = some u → s.now + d ≤ u

def Punctual (s : PState) : Act → Prop
  | .tick d => OnTime s d
  | .start _ _ settings => settings.heartbeatSeconds < settings.leaseTtlSeconds
  | .renewFails _ => False
  | _ => True

def Covered (s : PState) (l : Act) : Prop :=
  Punctual s l ∧ match l with
    | .tick d => InLease s d
    | .start _ _ settings => 0 ≤ settings.leaseTtlSeconds
    | _ => True

/-! ## The invariant -/

/-- The item's row is CLAIMED by `w` under a lease that has not run out. -/
def HeldBy (s : PState) (w : WorkerId) (c : ClaimedItem) (u : Int) : Prop :=
  ∃ r ∈ s.items.rows, r.id = c.id ∧ ownedBy w r = true ∧ r.leaseUntil = some u ∧ s.now ≤ u

/-- A living worker holds its chunk, with a lease beyond the next wake time. -/
structure HoldsAll (s : PState) (w : WorkerId) (k : Worker) : Prop where
  settings : k.settings.heartbeatSeconds < k.settings.leaseTtlSeconds ∧
    0 ≤ k.settings.leaseTtlSeconds
  beats : k.life = .running → ∀ cid chunk, k.phase ≠ .processing cid chunk .failed
  items : k.life = .running → ∀ c ∈ k.phase.chunk, ∃ u, HeldBy s w c u ∧
    ∀ cid chunk wake, k.phase = .processing cid chunk (.sleeping wake) → wake < u

section step
variable {s v : PState} {l : Act}

/-- A row under an unexpired lease is changed by its owner only. -/
theorem rowNext_kept {r : ItemRow} {w : WorkerId} {u : Int} (ho : ownedBy w r = true)
    (hu : r.leaseUntil = some u) (hn : s.now ≤ u) (hm : Move s l v) (hr : l ≠ .renew w)
    (hc : ∀ n, l ≠ .complete w n) : rowNext s l r = r := by
  obtain ⟨hw, hcl⟩ := ownedBy_iff.mp ho
  cases hm with
  | leave hk | claim hk =>
    rw [rowNext_claim hk, if_neg]
    intro hmem
    obtain ⟨-, hp | ⟨-, he⟩⟩ := claimable_iff.mp (mem_claimed hmem).2
    · rw [hcl] at hp; cases hp
    · simp only [leaseExpired, hu, decide_eq_true_eq] at he
      omega
  | @renew x k cid chunk wake hk =>
    rw [rowNext_renew hk, if_neg]
    intro hx
    rw [(ownedBy_iff.mp hx).1] at hw
    cases hw; exact hr rfl
  | @complete x k cid chunk results ref hk hl hp =>
    rw [rowNext_complete hk hp]
    refine completeRow_of_not_owned ?_ _ _
    rw [Bool.eq_false_iff]
    intro hx
    rw [(ownedBy_iff.mp hx).1] at hw
    cases hw; exact hc _ rfl
  | _ => rfl

/-- An item stays held over a step that is not its worker's own, as far as time
allows. -/
theorem HeldBy.step (hr : pool.Reachable s) (hst : pool.step s l v) {w : WorkerId}
    {c : ClaimedItem} {u : Int} (h : HeldBy s w c u) (hl : l ≠ .renew w)
    (hc : ∀ n, l ≠ .complete w n) (hn : v.now ≤ u) : HeldBy v w c u := by
  obtain ⟨r, hrow, hid, ho, hu, hnow⟩ := h
  have hmem := rowNext_mem hr hst hrow
  rw [rowNext_kept ho hu hnow (move_of_step hst) hl hc] at hmem
  exact ⟨r, hmem, hid, ho, hu, hn⟩

/-- The leases that a claim or a renewal writes outlast the next wake time. -/
theorem lease_after_wake {settings : Settings}
    (h : settings.heartbeatSeconds < settings.leaseTtlSeconds ∧ 0 ≤ settings.leaseTtlSeconds)
    (now : Int) : now ≤ now + makeInterval settings.leaseTtlSeconds ∧
      now + makeInterval settings.heartbeatSeconds <
        now + makeInterval settings.leaseTtlSeconds := by
  unfold makeInterval
  omega

/-- Covered time does not pass the lease of a held item. -/
theorem tick_held {d : Nat} (hcov : Covered s (.tick d)) {w : WorkerId} {k : Worker}
    (h : HoldsAll s w k) (hk : s.workers w = some k) (hl : k.life = .running) {c : ClaimedItem}
    (hc : c ∈ k.phase.chunk) {u : Int} (hu : HeldBy s w c u)
    (hwake : ∀ cid chunk wake, k.phase = .processing cid chunk (.sleeping wake) → wake < u) :
    s.now + d ≤ u := by
  obtain ⟨r, hrow, -, ho, hlu, hnow⟩ := hu
  cases hp : k.phase with
  | claiming => rw [hp] at hc; cases hc
  | processing cid chunk hb =>
    cases hb with
    | sleeping wake =>
      have h1 : s.now + d ≤ max s.now wake := hcov.1 w k hk hl cid chunk wake hp
      have h2 := hwake cid chunk wake hp
      omega
    | failed => exact absurd hp (h.beats hl cid chunk)
  | writing | completing => exact hcov.2 w k hk hl (by rw [hp]; rfl) r hrow ho u hlu

/-- The clock stands still but for a tick. -/
theorem move_now (hm : Move s l v) (h : ∀ d, l ≠ .tick d) : v.now = s.now := by
  cases hm with
  | tick d => exact absurd rfl (h d)
  | _ => rfl

theorem holdsAll_step (hr : pool.Reachable s)
    (h : ∀ w k, s.workers w = some k → HoldsAll s w k) (hst : pool.step s l v)
    (hcov : Covered s l) : ∀ w k, v.workers w = some k → HoldsAll v w k := by
  have hm := move_of_step hst
  -- a worker that holds the chunk it held, over a step that does not write its leases
  have keep : ∀ x k k', s.workers x = some k → k'.settings = k.settings →
      (k'.life = .running → k.life = .running ∧ k'.phase.chunk = k.phase.chunk ∧
        ∀ cid chunk hb, k'.phase = .processing cid chunk hb →
          k.phase = .processing cid chunk hb) →
      l ≠ .renew x → (∀ n, l ≠ .complete x n) → v.now = s.now → HoldsAll v x k' := by
    intro x k k' hx hset hsame hl hc hn
    obtain ⟨h1, h2, h3⟩ := h x k hx
    refine ⟨hset ▸ h1, fun hlife cid chunk hp => ?_, fun hlife c hcm => ?_⟩
    · obtain ⟨hl₀, -, hph⟩ := hsame hlife
      exact h2 hl₀ cid chunk (hph cid chunk _ hp)
    · obtain ⟨hl₀, hch, hph⟩ := hsame hlife
      obtain ⟨u, hu, hwake⟩ := h3 hl₀ c (hch ▸ hcm)
      obtain ⟨r, -, -, -, -, hle⟩ := id hu
      exact ⟨u, hu.step hr hst hl hc (hn ▸ hle), fun cid chunk wake hp =>
        hwake cid chunk wake (hph cid chunk _ hp)⟩
  intro x k' hx
  cases turn_of_move hm hx with
  | same hk hne =>
    by_cases htick : ∃ d, l = .tick d
    · obtain ⟨d, rfl⟩ := htick
      cases hm
      obtain ⟨h1, h2, h3⟩ := h x k' hk
      refine ⟨h1, h2, fun hlife c hcm => ?_⟩
      obtain ⟨u, hu, hwake⟩ := h3 hlife c hcm
      have hle := tick_held hcov (h x k' hk) hk hlife hcm hu hwake
      exact ⟨u, hu.step hr hst (by simp) (by simp) hle, hwake⟩
    · refine keep x _ _ hk rfl (fun hl => ⟨hl, rfl, fun _ _ _ hp => hp⟩) ?_ ?_
        (move_now hm fun d hd => htick ⟨d, hd⟩)
      · rintro rfl; exact hne rfl
      · rintro n rfl; exact hne rfl
  | start => exact ⟨⟨hcov.1, hcov.2⟩, by simp, fun _ c hc => by cases hc⟩
  | leave hk | dropped hk | raise hk | crash hk =>
    exact keep x _ _ hk rfl (by simp) (by simp) (by simp) (move_now hm (by simp))
  | writePart hk =>
    exact keep x _ _ hk rfl (fun hl => ⟨hl, rfl, fun _ _ _ hp => hp⟩) (by simp) (by simp)
      (move_now hm (by simp))
  | @claim k cid chunk hk hl hp hne hfresh hperm =>
    have hset := (h x k hk).settings
    obtain ⟨hlease, hwake⟩ := lease_after_wake hset s.now
    refine ⟨hset, by simp, fun _ c hc =>
      ⟨s.now + makeInterval k.settings.leaseTtlSeconds, ?_, fun _ _ _ he => ?_⟩⟩
    · -- the claim has just written the lease
      obtain ⟨r, hmem, rfl⟩ := (mem_chunk hperm).mp hc
      have hrow := rowNext_mem hr hst (mem_claimed hmem).1
      rw [rowNext_claim hk, if_pos hmem] at hrow
      exact ⟨_, hrow, rfl, ownedBy_iff.mpr ⟨rfl, rfl⟩, rfl, move_now hm (by simp) ▸ hlease⟩
    · cases he; exact hwake
  | @renew k cid chunk wake hk hl hp =>
    obtain ⟨hset, -, hitems⟩ := h x k hk
    obtain ⟨hlease, hwake⟩ := lease_after_wake hset s.now
    refine ⟨hset, by simp, fun _ c hc =>
      ⟨s.now + makeInterval k.settings.leaseTtlSeconds, ?_, fun _ _ _ he => ?_⟩⟩
    · -- every row of the chunk is still this worker's, so it is renewed
      obtain ⟨u, ⟨r, hrow, hid, ho, -, -⟩, -⟩ := hitems hl c (by rw [hp]; exact hc)
      have hmem := rowNext_mem hr hst hrow
      rw [rowNext_renew hk, if_pos ho] at hmem
      exact ⟨_, hmem, hid, ho, rfl, move_now hm (by simp) ▸ hlease⟩
    · cases he; exact hwake
  | renewFails => exact hcov.1.elim
  | processed hk hl hp | written hk hl hp =>
    exact keep x _ _ hk rfl (fun _ => ⟨hl, by rw [hp]; rfl, by simp⟩) (by simp) (by simp)
      (move_now hm (by simp))
  | complete hk => exact ⟨(h x _ hk).settings, by simp, fun _ c hc => by cases hc⟩

end step

theorem holdsAll_reachable {s : PState} (h : (pool.restrict Covered).Reachable s) :
    ∀ w k, s.workers w = some k → HoldsAll s w k := by
  refine h.induct (I := fun s => ∀ w k, s.workers w = some k → HoldsAll s w k) ?_ ?_
  · rintro _ ⟨now, rfl⟩ w k hk; cases hk
  · intro s l v hr hi hst
    exact holdsAll_step hr.of_restrict hi hst.1 hst.2

/-! ## Headline -/

/-- **A living worker keeps its chunk**, in every punctual run in which no lease
runs out during a `write_chunk` or `complete_items`: no other worker's claim
returns an item of it. -/
theorem live_keeps_chunk {s : PState} (h : (pool.restrict Covered).Reachable s) :
    ∀ w k, s.workers w = some k → k.life = .running → ∀ w' cid chunk v, w' ≠ w →
      pool.step s (.claim w' cid chunk) v → ∀ c ∈ k.phase.chunk, ∀ c' ∈ chunk, c'.id ≠ c.id := by
  intro w k hk hl w' cid chunk v _ hst c hc c' hc' hid
  obtain ⟨u, ⟨r, hrow, hrid, ho, hu, hnow⟩, -⟩ := (holdsAll_reachable h w k hk).items hl c hc
  cases move_of_step hst with
  | leave => cases hc'
  | claim hk' hl' hp hne hfresh hperm =>
    obtain ⟨q, hq, rfl⟩ := (mem_chunk hperm).mp hc'
    obtain ⟨hqm, hcl⟩ := mem_claimed hq
    obtain rfl := s.items.id_inj hqm hrow (hid.trans hrid.symm)
    obtain ⟨-, hcs⟩ := ownedBy_iff.mp ho
    obtain ⟨-, hp | ⟨-, he⟩⟩ := claimable_iff.mp hcl
    · rw [hcs] at hp; cases hp
    · simp only [leaseExpired, hu, decide_eq_true_eq] at he
      omega

/-! ## Non-vacuity -/

/-- `write_chunk` takes longer than the lease. -/
def slowWrite : List Act :=
  [.bulkInsert "j" [⟨"a", "hi"⟩] [], .start ["w1", "w2"] "j" {},
    .claim "w1" chunk1 [⟨1, "a", "hi", 1⟩], .processed "w1" (answer "one") (fun _ => 5),
    .tick 120000001]

/-- Two rows in chunks of one; `w1` renews while its row is processed. -/
def renewedRun : List Act :=
  [.bulkInsert "j" [⟨"a", "hi"⟩, ⟨"b", "ho"⟩] [], .start ["w1", "w2"] "j" { chunkSize := 1 },
    .claim "w1" chunk1 [⟨1, "a", "hi", 1⟩], .tick 30000000, .renew "w1", .tick 30000000, .renew "w1",
    .tick 30000000, .renew "w1", .tick 30000000, .renew "w1", .tick 10000000,
    .processed "w1" (answer "one") (fun _ => 5), .tick 50000000]

/-- `Punctual` and `Covered` on the workers `ws`. -/
def coveredIn (ws : List WorkerId) (covered : Bool) (t : Trans PState Act) : Bool :=
  match t.lbl with
  | .tick d => ws.all fun w => (t.pre.workers w).all fun k => match k.phase with
    | .claiming => true
    | .processing _ _ (.sleeping wake) => t.pre.now + d ≤ max t.pre.now wake
    | .processing _ _ .failed => true
    | .writing .. | .completing .. => !covered || t.pre.items.rows.all fun r =>
      !ownedBy w r || r.leaseUntil.all fun u => t.pre.now + d ≤ u
  | .start _ _ settings => settings.heartbeatSeconds < settings.leaseTtlSeconds &&
    (!covered || 0 ≤ settings.leaseTtlSeconds)
  | .renewFails _ => false
  | _ => true

section check
variable {t : Trans PState Act} {ws : List WorkerId} {b : Bool}

theorem punctual_of_check (hws : ∀ w k, t.pre.workers w = some k → w ∈ ws)
    (h : coveredIn ws b t = true) : Punctual t.pre t.lbl := by
  cases hl : t.lbl with
  | tick d =>
    intro w k hk _ cid chunk wake hp
    simp only [coveredIn, hl, List.all_eq_true] at h
    have := h w (hws w k hk)
    rw [hk, Option.all_some, hp] at this
    exact of_decide_eq_true this
  | start ws' job settings =>
    simp only [coveredIn, hl, Bool.and_eq_true, decide_eq_true_eq] at h
    exact h.1
  | renewFails => rw [coveredIn, hl] at h; cases h
  | bulkInsert | claim | renew | processed | writePart | written | complete | raise | crash =>
    trivial

theorem covered_of_check (hws : ∀ w k, t.pre.workers w = some k → w ∈ ws)
    (h : coveredIn ws true t = true) : Covered t.pre t.lbl := by
  refine ⟨punctual_of_check hws h, ?_⟩
  cases hl : t.lbl with
  | tick d =>
    intro w k hk _ hres r hrow ho u hu
    simp only [coveredIn, hl, List.all_eq_true] at h
    have := h w (hws w k hk)
    rw [hk, Option.all_some] at this
    cases hp : k.phase with
    | claiming | processing => rw [hp] at hres; cases hres
    | writing | completing =>
      simp only [hp, Bool.not_true, Bool.false_or, List.all_eq_true] at this
      have := this r hrow
      rw [ho, hu] at this
      exact of_decide_eq_true this
  | start ws' job settings =>
    simp only [coveredIn, hl, Bool.and_eq_true, decide_eq_true_eq, Bool.not_true, Bool.false_or] at h
    exact h.2
  | bulkInsert | claim | renew | renewFails | processed | writePart | written | complete | raise
  | crash => trivial

end check

/-- In `slowWrite` the living worker `w1` loses its row to `w2`. -/
theorem live_loses_chunk : ¬ ∀ s, (pool.restrict Punctual).Reachable s →
    ∀ w k, s.workers w = some k → k.life = .running → ∀ w' cid chunk v, w' ≠ w →
      pool.step s (.claim w' cid chunk) v → ∀ c ∈ k.phase.chunk, ∀ c' ∈ chunk, c'.id ≠ c.id := by
  intro h
  obtain ⟨⟨tr, s⟩, he, hq, hk, hs⟩ : ∃ p, LTS.exec step (.init 0) slowWrite = some p ∧
      (∀ t ∈ p.1, coveredIn (started p.1) false t = true) ∧
      (p.2.workers "w1").any (fun k => k.life = .running ∧ ⟨1, "a", "hi", 1⟩ ∈ k.phase.chunk) = true ∧
      (step p.2 (.claim "w2" chunk2 [⟨1, "a", "hi", 2⟩])).isSome = true :=
    ⟨_, rfl, by decide +kernel, by decide +kernel, by decide +kernel⟩
  have hr : (pool.restrict Punctual).Run tr s :=
    restrict_of_started ⟨_, ⟨0, rfl⟩, LTS.path_of_exec he⟩ fun t ht hws =>
      punctual_of_check hws (hq t ht)
  obtain ⟨k, hk, hp⟩ := (Option.any_eq_true _ _).mp hk
  obtain ⟨hl, hc⟩ := of_decide_eq_true hp
  obtain ⟨v, hv⟩ := Option.isSome_iff_exists.mp hs
  exact h s hr.reachable "w1" k hk hl "w2" chunk2 _ v (by decide) hv _ hc _ List.mem_cons_self rfl

/-- In `renewedRun` the claim of `w2` gets the other row. -/
theorem live_keeps_chunk_renewed : ∃ s v k, (pool.restrict Covered).Reachable s ∧
    s.workers "w1" = some k ∧ ⟨1, "a", "hi", 1⟩ ∈ k.phase.chunk ∧
    pool.step s (.claim "w2" chunk2 [⟨2, "b", "ho", 1⟩]) v ∧
    ∀ c ∈ k.phase.chunk, ∀ c' ∈ [(⟨2, "b", "ho", 1⟩ : ClaimedItem)], c'.id ≠ c.id := by
  obtain ⟨⟨tr, s⟩, he, hq, hk, hs⟩ : ∃ p, LTS.exec step (.init 0) renewedRun = some p ∧
      (∀ t ∈ p.1, coveredIn (started p.1) true t = true) ∧
      (p.2.workers "w1").any (fun k => k.life = .running ∧ ⟨1, "a", "hi", 1⟩ ∈ k.phase.chunk) = true ∧
      (step p.2 (.claim "w2" chunk2 [⟨2, "b", "ho", 1⟩])).isSome = true :=
    ⟨_, rfl, by decide +kernel, by decide +kernel, by decide +kernel⟩
  have hr : (pool.restrict Covered).Run tr s :=
    restrict_of_started ⟨_, ⟨0, rfl⟩, LTS.path_of_exec he⟩ fun t ht hws =>
      covered_of_check hws (hq t ht)
  obtain ⟨k, hk, hp⟩ := (Option.any_eq_true _ _).mp hk
  obtain ⟨hl, hc⟩ := of_decide_eq_true hp
  obtain ⟨v, hv⟩ := Option.isSome_iff_exists.mp hs
  exact ⟨s, v, k, hr.reachable, hk, hc, hv,
    live_keeps_chunk hr.reachable "w1" k hk hl "w2" chunk2 _ v (by decide) hv⟩

end BatchSystem.Engine
