import BatchSystem.Queue.Transactions

/-!
# Claims are exclusive

`leaseOf tr w id` is the lease that worker `w` last got on row `id` in the
history `tr`, by a claim or by a renewal. The row's own columns hold the lease
of its last claimer; `LeaseInv` says that any other lease has run out:
a claim takes a row from its owner only when the owner's lease lies strictly
before `now()`.

* `leaseWritten_row`: after a step a row carries the lease the step wrote on
  it, or its old one.
* `claims_exclusive`: a claim returns unfinished rows whose former leases have
  all run out; no row is under unexpired leases of two workers; chunks claimed
  without an expiry in between are disjoint.
-/
namespace BatchSystem.Queue

open BatchSystem.Core Domain PromptItems

/-- The lease that a transition writes on a row. -/
def leaseWritten (t : Trans QState Tx) (id : Nat) : Option (WorkerId × Int) :=
  match t.lbl with
  | .claimChunk _ w _ secs chunk =>
    if id ∈ chunk.map (·.id) then some (w, t.pre.now + makeInterval secs) else none
  | .renewLease w secs =>
    if t.pre.items.rows.any (fun r => r.id == id && ownedBy w r) then
      some (w, t.pre.now + makeInterval secs)
    else none
  | _ => none

/-- The last lease of worker `w` on row `id`. -/
def leaseOf (tr : List (Trans QState Tx)) (w : WorkerId) (id : Nat) : Option Int :=
  tr.foldl (fun acc t => match leaseWritten t id with
    | some (w', u) => if w' = w then some u else acc
    | none => acc) none

theorem leaseOf_snoc (tr : List (Trans QState Tx)) (t : Trans QState Tx) (w : WorkerId)
    (id : Nat) : leaseOf (tr ++ [t]) w id = match leaseWritten t id with
      | some (w', u) => if w' = w then some u else leaseOf tr w id
      | none => leaseOf tr w id := by
  simp [leaseOf]

/-! ## One step -/

theorem renew_any {s : QState} {w : WorkerId} {r : ItemRow} (hr : r ∈ s.items.rows) :
    s.items.rows.any (fun x => x.id == r.id && ownedBy w x) = ownedBy w r := by
  rw [Bool.eq_iff_iff, List.any_eq_true]
  constructor
  · rintro ⟨x, hx, he⟩
    simp only [Bool.and_eq_true, beq_iff_eq] at he
    exact s.items.id_inj hx hr he.1 ▸ he.2
  · exact fun h => ⟨r, hr, by simp [h]⟩

/-- After a step a row carries the lease the step wrote on it, or its old one. -/
theorem leaseWritten_row {s v : QState} {l : Tx} (hst : txStep s l = some v) {r : ItemRow}
    (hr : r ∈ s.items.rows) :
    match leaseWritten ⟨s, l, v⟩ r.id with
    | some (w, u) => (rowAfter s l r).workerId = some w ∧ (rowAfter s l r).leaseUntil = some u
    | none => (rowAfter s l r).workerId = r.workerId ∧
        (rowAfter s l r).leaseUntil = r.leaseUntil := by
  cases l with
  | tick | bulkInsert => exact ⟨rfl, rfl⟩
  | claimChunk job w size secs chunk =>
    simp only [leaseWritten, claimChunk_mem_id hst hr, rowAfter]
    by_cases hc : r ∈ claimed s.items job size s.now
    · rw [if_pos hc, if_pos hc]; exact ⟨rfl, rfl⟩
    · rw [if_neg hc, if_neg hc]; exact ⟨rfl, rfl⟩
  | completeItems w results ref count =>
    simp only [leaseWritten, rowAfter, completeRow]
    split
    · split <;> exact ⟨rfl, rfl⟩
    · exact ⟨rfl, rfl⟩
  | renewLease w secs =>
    simp only [leaseWritten, renew_any hr, rowAfter]
    by_cases ho : ownedBy w r = true
    · rw [if_pos ho, if_pos ho]; exact ⟨(ownedBy_iff.mp ho).1, rfl⟩
    · rw [if_neg ho, if_neg ho]; exact ⟨rfl, rfl⟩

/-- A lease is written on an existing row. -/
theorem leaseWritten_mem {s v : QState} {l : Tx} (hst : txStep s l = some v) {id : Nat}
    {p : WorkerId × Int} (h : leaseWritten ⟨s, l, v⟩ id = some p) :
    ∃ r ∈ s.items.rows, r.id = id := by
  cases l with
  | claimChunk job w size secs chunk =>
    simp only [leaseWritten, Option.ite_none_right_eq_some, List.mem_map] at h
    obtain ⟨⟨c, hc, rfl⟩, -⟩ := h
    obtain ⟨r, hr, rfl⟩ := (claimChunk_mem hst).mp hc
    exact ⟨r, (mem_claimed hr).1, rfl⟩
  | renewLease w secs =>
    simp only [leaseWritten, Option.ite_none_right_eq_some, List.any_eq_true] at h
    obtain ⟨⟨r, hr, he⟩, -⟩ := h
    simp only [Bool.and_eq_true, beq_iff_eq] at he
    exact ⟨r, hr, he.1⟩
  | tick | bulkInsert | completeItems => cases h

/-- A worker gets a lease on a row that another one owns only when the owner's
lease has run out. -/
theorem leaseWritten_takeover {s v : QState} {l : Tx} (hst : txStep s l = some v) {r : ItemRow}
    (hr : r ∈ s.items.rows) (hok : RowOk r) {w w' : WorkerId} {u u' : Int}
    (h : leaseWritten ⟨s, l, v⟩ r.id = some (w', u')) (hne : w' ≠ w) (hw : r.workerId = some w)
    (hu : r.leaseUntil = some u) : u < s.now := by
  cases l with
  | claimChunk job x size secs chunk =>
    simp only [leaseWritten, claimChunk_mem_id hst hr, Option.ite_none_right_eq_some] at h
    obtain ⟨-, hp | ⟨-, he⟩⟩ := claimable_iff.mp (mem_claimed h.1).2
    · rw [hok.pending hp] at hw; cases hw
    · simpa [leaseExpired, hu] using he
  | renewLease x secs =>
    simp only [leaseWritten, renew_any hr, Option.ite_none_right_eq_some, Option.some.injEq,
      Prod.mk.injEq] at h
    obtain ⟨ho, rfl, -⟩ := h
    rw [(ownedBy_iff.mp ho).1] at hw
    exact absurd (Option.some.inj hw) hne
  | tick | bulkInsert | completeItems => cases h

/-! ## The invariant -/

/-- A lease of the history has run out or is the one in the row's columns. -/
def LeaseInv (tr : List (Trans QState Tx)) (s : QState) : Prop :=
  ∀ w id u, leaseOf tr w id = some u →
    ∃ r ∈ s.items.rows, r.id = id ∧ (u < s.now ∨ (r.workerId = some w ∧ r.leaseUntil = some u))

theorem leaseInv_step {tr : List (Trans QState Tx)} {s v : QState} {l : Tx}
    (hok : ∀ r ∈ s.items.rows, RowOk r) (hi : LeaseInv tr s) (hst : txStep s l = some v) :
    LeaseInv (tr ++ [⟨s, l, v⟩]) v := by
  have hnow := txStep_now hst
  intro w id u hu
  rw [leaseOf_snoc] at hu
  cases hw : leaseWritten ⟨s, l, v⟩ id with
  | none =>
    -- the step writes no lease on the row: it keeps the one it has
    simp only [hw] at hu
    obtain ⟨r, hr, rfl, ho⟩ := hi w id u hu
    have hrow := leaseWritten_row hst hr
    simp only [hw] at hrow
    refine ⟨_, rowAfter_mem hst hr, (rowAfter_sameKey s l r).1, ?_⟩
    rw [hrow.1, hrow.2]
    exact ho.imp_left fun h => by omega
  | some p =>
    obtain ⟨w', u'⟩ := p
    obtain ⟨r, hr, rfl⟩ := leaseWritten_mem hst hw
    have hrow := leaseWritten_row hst hr
    simp only [hw] at hu hrow
    refine ⟨_, rowAfter_mem hst hr, (rowAfter_sameKey s l r).1, ?_⟩
    by_cases he : w' = w
    · subst he
      rw [if_pos rfl] at hu
      cases hu
      exact .inr hrow
    · rw [if_neg he] at hu
      left
      obtain ⟨r', hr', hid, ho⟩ := hi w r.id u hu
      rw [s.items.id_inj hr' hr hid] at ho
      rcases ho with ho | ⟨h1, h2⟩
      · omega
      · have := leaseWritten_takeover hst hr (hok r hr) hw he h1 h2
        omega

theorem leaseInv_run {tr : List (Trans QState Tx)} {s : QState} (h : queue.Run tr s) :
    LeaseInv tr s := by
  refine h.induct (P := LeaseInv) ?_ ?_
  · intro s _ w id u hu
    cases hu
  · intro tr s l v hr hi hst
    exact leaseInv_step (rowOk_reachable hr.reachable) hi hst

/-- The leases on a claimable row have all run out. -/
theorem lease_lt_of_claimable {tr : List (Trans QState Tx)} {s : QState} (h : queue.Run tr s)
    {r : ItemRow} (hr : r ∈ s.items.rows) {job : JobId} (hc : claimable job s.now r = true)
    {w : WorkerId} {u : Int} (hu : leaseOf tr w r.id = some u) : u < s.now := by
  obtain ⟨r', hr', hid, ho⟩ := leaseInv_run h w r.id u hu
  rw [s.items.id_inj hr' hr hid] at ho
  rcases ho with ho | ⟨h1, h2⟩
  · exact ho
  · obtain ⟨-, hp | ⟨-, he⟩⟩ := claimable_iff.mp hc
    · rw [(rowOk_reachable h.reachable r hr).pending hp] at h1; cases h1
    · simpa [leaseExpired, h2] using he

/-- No lease written in the stretch `seg` of the history has run out in `s`
while its row was still claimed under it. -/
def NoLeaseExpired (seg : List (Trans QState Tx)) (s : QState) : Prop :=
  ∀ r ∈ s.items.rows, r.status = .claimed → ∀ w u, r.workerId = some w →
    leaseOf seg w r.id = some u → s.now ≤ u

/-- From a claim on, a row of its chunk is claimed or finished, under the last
lease written since. -/
theorem claimed_since {a b : QState} {job : JobId} {w : WorkerId} {size : Nat} {secs : Int}
    {chunk : List ClaimedItem} (hst : txStep a (.claimChunk job w size secs chunk) = some b)
    {c : ClaimedItem} (hc : c ∈ chunk) {tr : List (Trans QState Tx)} {s : QState}
    (hp : queue.Path b tr s) : ∃ r ∈ s.items.rows, r.id = c.id ∧ r.status ≠ .pending ∧
      ∃ w' u, r.workerId = some w' ∧ r.leaseUntil = some u ∧
        leaseOf (⟨a, .claimChunk job w size secs chunk, b⟩ :: tr) w' c.id = some u := by
  induction hp with
  | nil =>
    obtain ⟨r, hr, rfl⟩ := (claimChunk_mem hst).mp hc
    have hm := (mem_claimed hr).1
    have hrow : rowAfter a (.claimChunk job w size secs chunk) r = claimRow w _ r := if_pos hr
    have hw : leaseWritten ⟨a, .claimChunk job w size secs chunk, b⟩ (claimedItem r).id =
        some (w, a.now + makeInterval secs) := if_pos (List.mem_map_of_mem hc)
    refine ⟨_, rowAfter_mem hst hm, (rowAfter_sameKey _ _ _).1, ?_, w,
      a.now + makeInterval secs, ?_, ?_, ?_⟩
    · rw [hrow]; exact nofun
    · rw [hrow]; rfl
    · rw [hrow]; rfl
    · simp [leaseOf, hw]
  | @snoc tr s v l hp hs ih =>
    obtain ⟨r, hr, hid, hnp, w', u, h1, h2, h3⟩ := ih
    have hs' : txStep s l = some v := hs
    have hrow := leaseWritten_row hs' hr
    have hsp : (rowAfter s l r).status ≠ .pending := by
      cases l with
      | tick | bulkInsert => exact hnp
      | claimChunk => simp only [rowAfter]; split <;> simp [claimRow, hnp]
      | renewLease => simp only [rowAfter]; split <;> exact hnp
      | completeItems x results ref count =>
        simp only [txStep, Option.ite_none_right_eq_some] at hs'
        simp only [rowAfter, completeRow]
        split
        · split
          · rename_i res hres
            have ht := hs'.1.1 res (mem_recordFor hres).1
            intro e; simp only [finishRow] at e; rw [e] at ht; cases ht
          · exact hnp
        · exact hnp
    refine ⟨_, rowAfter_mem hs' hr, (rowAfter_sameKey s l r).1.trans hid, hsp, ?_⟩
    rw [hid] at hrow
    rw [← List.cons_append]
    cases hw : leaseWritten ⟨s, l, v⟩ c.id with
    | none =>
      simp only [hw] at hrow
      refine ⟨w', u, hrow.1.trans h1, hrow.2.trans h2, ?_⟩
      rw [leaseOf_snoc]; simp only [hw]; exact h3
    | some p =>
      simp only [hw] at hrow
      refine ⟨p.1, p.2, hrow.1, hrow.2, ?_⟩
      rw [leaseOf_snoc]; simp [hw]

/-! ## Headline -/

/-- **Claims are exclusive**, in every run of the queue. (1) A claim returns
rows that are not finished and whose former leases all lie strictly before
`now()`. (2) No row is under unexpired leases of two workers. (3) Two chunks
are disjoint when no lease expired between their claims. -/
theorem claims_exclusive {tr : List (Trans QState Tx)} {s : QState} (hr : queue.Run tr s) :
    (∀ job w size secs chunk v, queue.step s (.claimChunk job w size secs chunk) v →
      ∀ c ∈ chunk, (∃ r ∈ s.items.rows, r.id = c.id ∧ r.status.terminal = false) ∧
        ∀ w' u, leaseOf tr w' c.id = some u → u < s.now) ∧
    (∀ id w₁ w₂ u₁ u₂, leaseOf tr w₁ id = some u₁ → leaseOf tr w₂ id = some u₂ →
      s.now ≤ u₁ → s.now ≤ u₂ → w₁ = w₂) ∧
    (∀ tr₁ t₁ tr₂, tr = tr₁ ++ t₁ :: tr₂ → NoLeaseExpired (t₁ :: tr₂) s →
      ∀ job₁ w₁ size₁ secs₁ chunk₁, t₁.lbl = .claimChunk job₁ w₁ size₁ secs₁ chunk₁ →
      ∀ job₂ w₂ size₂ secs₂ chunk₂ v, queue.step s (.claimChunk job₂ w₂ size₂ secs₂ chunk₂) v →
      ∀ c₁ ∈ chunk₁, ∀ c₂ ∈ chunk₂, c₁.id ≠ c₂.id) := by
  refine ⟨?_, ?_, ?_⟩
  · intro job w size secs chunk v hst c hc
    obtain ⟨r, hm, rfl⟩ := (claimChunk_mem hst).mp hc
    obtain ⟨hmem, hcl⟩ := mem_claimed hm
    exact ⟨⟨r, hmem, rfl, not_terminal_of_claimable hcl⟩,
      fun w' u hu => lease_lt_of_claimable hr hmem hcl hu⟩
  · intro id w₁ w₂ u₁ u₂ h₁ h₂ hn₁ hn₂
    obtain ⟨r₁, hr₁, rfl, ho₁⟩ := leaseInv_run hr w₁ id u₁ h₁
    obtain ⟨r₂, hr₂, hid, ho₂⟩ := leaseInv_run hr w₂ r₁.id u₂ h₂
    rw [s.items.id_inj hr₂ hr₁ hid] at ho₂
    have e₁ := (ho₁.resolve_left (by omega)).1
    have e₂ := (ho₂.resolve_left (by omega)).1
    exact Option.some.inj (e₁.symm.trans e₂)
  · rintro tr₁ ⟨a, l, b⟩ tr₂ rfl hne job₁ w₁ size₁ secs₁ chunk₁ hl job₂ w₂ size₂ secs₂ chunk₂ v
      hst c₁ hc₁ c₂ hc₂ heq
    simp only at hl; subst hl
    obtain ⟨-, h₁, hp⟩ := hr.split
    obtain ⟨r, hrm, hid, hnp, w, u, hw, hu, hlease⟩ := claimed_since h₁ hc₁ hp
    obtain ⟨r', hr', rfl⟩ := (claimChunk_mem hst).mp hc₂
    obtain ⟨hm', hcl⟩ := mem_claimed hr'
    have hsame : r' = r := s.items.id_inj hm' hrm (heq.symm.trans hid.symm)
    subst hsame
    obtain ⟨-, hpend | ⟨hcd, he⟩⟩ := claimable_iff.mp hcl
    · exact hnp hpend
    · have hle := hne r' hm' hcd w u hw (hid ▸ hlease)
      simp only [leaseExpired, hu, decide_eq_true_eq] at he
      omega

/-- Two workers, one row: `w2` gets it once the lease of `w1` has run out. -/
def reclaimRun : List Tx :=
  [.bulkInsert "j" [⟨"a", "hi"⟩] [] 1, .claimChunk "j" "w1" 5 60 [⟨1, "a", "hi", 1⟩],
   .tick 60000001]

theorem claims_exclusive_reclaim : ∃ tr s, queue.Run tr s ∧ leaseOf tr "w1" 1 = some 60000000 ∧
    ∃ v, queue.step s (.claimChunk "j" "w2" 5 60 [⟨1, "a", "hi", 2⟩]) v ∧
      ∀ w u, leaseOf tr w 1 = some u → u < s.now := by
  obtain ⟨⟨tr, s⟩, he, hp⟩ : ∃ r, LTS.exec txStep ⟨0, .empty⟩ reclaimRun = some r ∧
      leaseOf r.1 "w1" 1 = some 60000000 ∧
      (txStep r.2 (.claimChunk "j" "w2" 5 60 [⟨1, "a", "hi", 2⟩])).isSome = true :=
    ⟨_, rfl, by decide, by decide⟩
  have hr : queue.Run tr s := ⟨⟨0, .empty⟩, rfl, LTS.path_of_exec he⟩
  obtain ⟨v, hv⟩ := Option.isSome_iff_exists.mp hp.2
  exact ⟨tr, s, hr, hp.1, v, hv,
    ((claims_exclusive hr).1 _ _ _ _ _ v hv _ List.mem_cons_self).2⟩

end BatchSystem.Queue
