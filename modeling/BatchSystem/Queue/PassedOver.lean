import BatchSystem.Queue.SkipLocked

/-!
# Rows that a claim passes over

SKIP LOCKED makes a claim pass over rows that other transactions hold, so it may
come back short, or empty, while rows wait. `passed_over_claimed` says what is
left then: every row that the claim saw waiting is taken, or in the hands of
another claim that is open. Only a rollback may bring such a row back.
-/
namespace BatchSystem.Queue

open BatchSystem.Core Domain PromptItems RowLocks

/-! ## Rows that were passed over -/

/-- No transaction is rolled back, and `w` does not commit. -/
def Going (w : WorkerId) (l : LAct) : Prop := (∀ w', l ≠ .rollback w') ∧ l ≠ .commit w

/-- The claim that `w` runs for the job, once it has its snapshot. -/
structure Claiming (s : LState) (w : WorkerId) (job : JobId) (size : Nat)
    (x : Txn Request ItemRow.id) : Prop where
  tx : s.tx w = some x
  call : ∃ secs, x.call.call = .claim job size secs
  scan : x.todo ≠ [] ↔ x.scan ≠ none

/-- Every row of the job below `n` that waits is locked, or the claim has still to
visit it, or the claim has all that it may take. -/
structure Passed (n : Nat) (job : JobId) (size : Nat) (s : LState) (x : Txn Request ItemRow.id) :
    Prop where
  known : n ≤ s.nextId
  rows : ∀ r ∈ s.rows, r.status = .pending → r.jobId = job → r.id < n →
    (∃ w', s.db.locker r.id = some w') ∨ (∃ ks, x.scan = some ks ∧ r.id ∈ ks) ∨
      size ≤ x.locks.length

/-- The table when another transaction moves. -/
theorem Passed.other {n : Nat} {job : JobId} {size : Nat} {s v : LState}
    {x : Txn Request ItemRow.id} (h : Passed n job size s x) (hn : s.nextId ≤ v.nextId)
    (hrows : ∀ r ∈ v.rows, r.status = .pending → r.id < n → r ∈ s.rows)
    (hl : ∀ r ∈ v.rows, r.status = .pending → ∀ w', s.db.locker r.id = some w' →
      ∃ w'', v.db.locker r.id = some w'') : Passed n job size v x := by
  refine ⟨Nat.le_trans h.known hn, fun r hr hp hj hid => ?_⟩
  rcases h.rows r (hrows r hr hp hid) hp hj hid with ⟨w', hw'⟩ | hcase
  · exact .inl (hl r hr hp w' hw')
  · exact .inr hcase

theorem passed_step {n : Nat} {w : WorkerId} {job : JobId} {size : Nat} {s v : LState}
    {l : LAct} {x : Txn Request ItemRow.id} (hi : LockInv s) (hm : LMove s l v) (hg : Going w l)
    (hx : Claiming s w job size x) (h : Passed n job size s x) :
    ∃ y, Claiming v w job size y ∧ Passed n job size v y := by
  obtain ⟨secs, hc⟩ := hx.call
  cases hm with
  | tick d => exact ⟨x, ⟨hx.tx, hx.call, hx.scan⟩, h.known, h.rows⟩
  | bulkInsert job' items failed =>
    refine ⟨x, ⟨hx.tx, hx.call, hx.scan⟩, h.other (Nat.le_add_right _ _) (fun r hr _ hid => ?_)
      fun _ _ _ w' hw' => ⟨w', hw'⟩⟩
    refine (List.mem_append.mp hr).resolve_right fun hnew => ?_
    have := (fresh_ids hnew).1
    have := h.known
    omega
  | @run l op db hop hp hm =>
    have others : ∀ {t y}, t ≠ w → (s.db.setTx t y).txs w = some x :=
      fun hne => (if_neg hne.symm).trans hx.tx
    have same : ∀ {y : Txn Request ItemRow.id} {db : DB WorkerId Request ItemRow.id},
        db.txs w = some y → y.call = x.call → (y.todo ≠ [] ↔ y.scan ≠ none) →
        Claiming { s with db } w job size y :=
      fun hy hcall hscan => ⟨hy, hcall ▸ hx.call, hscan⟩
    have stays : ∀ {db : DB WorkerId Request ItemRow.id}, db.txs w = some x → db.rows = s.rows →
        (∀ k w', s.db.locker k = some w' → ∃ w'', db.locker k = some w'') →
        ∃ y, Claiming { s with db } w job size y ∧ Passed n job size { s with db } y := by
      intro db hy hrows hl
      refine ⟨x, same hy rfl hx.scan, h.other (Nat.le_refl _) (fun r hr _ _ => ?_)
        fun r _ _ w' hw' => hl r.id w' hw'⟩
      rw [← hrows]
      exact hr
    cases hm with
    | @begin t call ht =>
      refine stays (others fun he => ?_) rfl fun _ w' hw' => ⟨w', hw'⟩
      rw [he] at ht
      exact absurd (ht.symm.trans hx.tx) (by simp)
    | @snapshot t y st rest hy ht hs =>
      refine stays (others fun he => ?_) rfl fun _ w' hw' => ⟨w', hw'⟩
      subst he
      obtain rfl := Option.some.inj (hy.symm.trans hx.tx)
      exact hx.scan.mp (by simp [ht]) hs
    | @pass t y st rest k ks hy ht hs hpass =>
      by_cases he : t = w
      · subst he
        obtain rfl := Option.some.inj (hy.symm.trans hx.tx)
        refine ⟨_, same (if_pos rfl) rfl (by simp [ht]), h.known, fun r hr hpend hj hid => ?_⟩
        obtain ⟨rfl, -, -⟩ := hi.claim_stmt hx.tx hc ht
        rcases h.rows r hr hpend hj hid with hlock | ⟨ks', hks', hmem⟩ | hfull
        · exact .inl hlock
        · rw [hs] at hks'
          cases hks'
          rcases List.mem_cons.mp hmem with hk | hmem
          · -- the row that is passed over
            rcases view_cases y r with ⟨l, hl, hle⟩ | hv
            · exact .inl ⟨t, hle ▸ hi.ok.locker t y hx.tx l hl⟩
            · rcases hpass r hr hk with hno | ⟨-, hlock, -⟩
              · rw [hv] at hno
                have hcl : claimable job y.call.now r = true := claimable_iff.mpr ⟨hj, .inl hpend⟩
                exact absurd (hcl.symm.trans hno) (by simp)
              · exact .inl (Option.ne_none_iff_exists'.mp (hk ▸ hlock))
          · exact .inr (.inl ⟨ks, rfl, hmem⟩)
        · exact .inr (.inr hfull)
      · exact stays (others he) rfl fun _ w' hw' => ⟨w', hw'⟩
    | @take t y st rest r₀ ks hy ht hs hf hr₀ hlk hcond =>
      have hlocker : ∀ k w', s.db.locker k = some w' →
          ∃ w'', (if k = r₀.id then some t else s.db.locker k) = some w'' := by
        intro k w' hw'
        split
        · exact ⟨t, rfl⟩
        · exact ⟨w', hw'⟩
      by_cases he : t = w
      · subst he
        obtain rfl := Option.some.inj (hy.symm.trans hx.tx)
        obtain ⟨-, -, hsingle⟩ := hi.claim_stmt hx.tx hc ht
        refine ⟨_, same (if_pos rfl) rfl (by simp [ht]), h.known, fun r hr hpend hj hid => ?_⟩
        rcases h.rows r hr hpend hj hid with ⟨w', hw'⟩ | ⟨ks', hks', hmem⟩ | hfull
        · exact .inl (hlocker r.id w' hw')
        · rw [hs] at hks'
          cases hks'
          rcases List.mem_cons.mp hmem with hk | hmem
          · exact .inl ⟨t, if_pos hk⟩
          · exact .inr (.inl ⟨ks, rfl, hmem⟩)
        · -- a full claim takes no more
          obtain ⟨hlen, -⟩ := hsingle.running (by simp [ht])
          obtain ⟨rfl, -, -⟩ := hi.claim_stmt hx.tx hc ht
          simp only [Stmt.full, claimStmt, Option.any_some, decide_eq_false_iff_not] at hf
          omega
      · exact stays (others he) rfl hlocker
    | @next t y st rest ks hy ht hs hend =>
      by_cases he : t = w
      · subst he
        obtain rfl := Option.some.inj (hy.symm.trans hx.tx)
        obtain ⟨rfl, rfl, hsingle⟩ := hi.claim_stmt hx.tx hc ht
        refine ⟨_, same (if_pos rfl) rfl (by simp), h.known,
          fun r hr hpend hj hid => ?_⟩
        rcases h.rows r hr hpend hj hid with hlock | ⟨ks', hks', hmem⟩ | hfull
        · exact .inl hlock
        · rw [hs] at hks'
          cases hks'
          rcases hend with rfl | hfull
          · cases hmem
          · obtain ⟨hlen, -⟩ := hsingle.running (by simp [ht])
            simp only [Stmt.full, claimStmt, Option.any_some, decide_eq_true_eq] at hfull
            exact .inr (.inr (by simp only; omega))
        · exact .inr (.inr hfull)
      · exact stays (others he) rfl fun _ w' hw' => ⟨w', hw'⟩
    | @commit t y hy ht =>
      have hne : t ≠ w := by
        rintro rfl
        cases l <;> cases hop
        exact hg.2 rfl
      have htx : (s.db.release t (s.db.rows.map y.view)).txs w = some x :=
        (if_neg hne.symm).trans hx.tx
      -- a row that waits after the commit was not locked by it
      have unlocked : ∀ r ∈ s.db.rows.map y.view, r.status = .pending →
          r ∈ s.rows ∧ s.db.locker r.id ≠ some t := by
        intro r hr hpend
        obtain ⟨r₀, hr₀, rfl⟩ := List.mem_map.mp hr
        have hfree : ∀ l ∈ y.locks, l.found.id ≠ r₀.id := by
          intro l hl hle
          rw [view_lock (hi.ok.lockKeys t y hy) hl hle.symm] at hpend
          exact (hi.lockOk t y hy l hl).taken hpend
        rw [view_free hfree]
        refine ⟨hr₀, fun hlock => ?_⟩
        obtain ⟨y', hy', l, hl, hle⟩ := hi.ok.held _ _ hlock
        obtain rfl := Option.some.inj (hy.symm.trans hy')
        exact hfree l hl hle
      refine ⟨x, same htx rfl hx.scan, h.other (Nat.le_refl _)
        (fun r hr hpend _ => (unlocked r hr hpend).1) fun r hr hpend w' hw' => ⟨w', ?_⟩⟩
      exact (if_neg (unlocked r hr hpend).2).trans hw'
    | @abort t y hy =>
      cases l <;> cases hop
      exact absurd rfl (hg.1 _)
    | insert => exact absurd hop LAct.op_ne_insert

/-- The claim after its snapshot: it has everything still to visit. -/
theorem passed_snapshot {s v : LState} {w : WorkerId} {x : Txn Request ItemRow.id} {job : JobId}
    {size : Nat} {secs : Int} (hi : LockInv s) (hx : s.tx w = some x)
    (hc : x.call.call = .claim job size secs) (hm : LMove s (.snapshot w) v) :
    ∃ y, Claiming v w job size y ∧ Passed v.nextId job size v y := by
  cases hm with
  | run hop hp hm =>
    cases hop
    cases hm with
    | @snapshot _ y st rest hy ht hs =>
      obtain rfl := Option.some.inj (hy.symm.trans hx)
      obtain ⟨rfl, -, hsingle⟩ := hi.claim_stmt hx hc ht
      have hno := hsingle.fresh (by simp [ht]) hs
      refine ⟨_, ⟨if_pos rfl, ⟨secs, hc⟩, by simp [ht]⟩, Nat.le_refl _,
        fun r hr hp hj _ => .inr (.inl ⟨_, rfl, ?_⟩)⟩
      refine List.mem_map.mpr ⟨r, List.mem_filter.mpr ⟨hr, ?_⟩, rfl⟩
      rw [view_free fun l hl => by rw [hno] at hl; cases hl]
      exact claimable_iff.mpr ⟨hj, .inl hp⟩

/-- **What a claim passes over is being claimed.** When a claim has visited all
that it saw and could have taken more, and nothing was rolled back since its
snapshot, every row of its job that was there then and still waits is locked by
a claim that is open. -/
theorem passed_over_claimed {s₀ s v : LState} {tr : List (Trans LState LAct)} {w : WorkerId}
    {x y : Txn Request ItemRow.id} {job : JobId} {size : Nat} {secs : Int}
    (hs₀ : lockQueue.Reachable s₀) (hx : s₀.tx w = some x)
    (hc : x.call.call = .claim job size secs) (hsnap : lockQueue.step s₀ (.snapshot w) s)
    (hp : lockQueue.Path s tr v) (hgo : ∀ t ∈ tr, Going w t.lbl) (hy : v.tx w = some y)
    (hdone : y.todo = []) (hfew : y.locks.length < size) :
    ∀ r ∈ v.rows, r.status = .pending → r.jobId = job → r.id < s.nextId →
      ∃ w' x' size' secs', v.tx w' = some x' ∧ x'.call.call = .claim job size' secs' ∧
        ∃ l ∈ x'.locks, l.found = r := by
  have hs : lockQueue.Reachable s := hs₀.step hsnap
  have hi₀ := lockInv_reachable hs₀
  -- along the path, by the steps of all transactions
  have hall : ∃ y, Claiming v w job size y ∧ Passed s.nextId job size v y := by
    clear hy
    induction hp with
    | nil => exact passed_snapshot hi₀ hx hc (lmove_of_step hi₀ hsnap)
    | @snoc tr u v l hp hst ih =>
      obtain ⟨z, hz, hpass⟩ := ih fun t ht => hgo t (List.mem_append_left _ ht)
      have hi := lockInv_reachable (hs.path hp)
      have hg : Going w l := hgo ⟨u, l, v⟩ (List.mem_append_right _ List.mem_cons_self)
      exact passed_step hi (lmove_of_step hi hst) hg hz hpass
  obtain ⟨z, hz, hpass⟩ := hall
  obtain rfl := Option.some.inj (hy.symm.trans hz.tx)
  have hi := lockInv_reachable (hs.path hp)
  intro r hr hpend hj hid
  have hscan : y.scan = none := by
    by_contra hn
    exact hz.scan.mpr hn hdone
  obtain ⟨w', hw'⟩ : ∃ w', v.db.locker r.id = some w' := by
    rcases hpass.rows r hr hpend hj hid with hlock | ⟨ks, hks, -⟩ | hfull
    · exact hlock
    · rw [hscan] at hks
      cases hks
    · omega
  obtain ⟨x', hx', l, hl, hle⟩ := hi.ok.held _ _ hw'
  have hrow : l.found = r :=
    List.inj_on_of_nodup_map hi.ok.keys (hi.ok.found w' x' hx' l hl).1 hr hle
  obtain ⟨job', size', secs', hcall⟩ := (hi.lockOk w' x' hx' l hl).waiting (hrow ▸ hpend)
  have hclaim := ((hi.claim hx' hcall).found l hl).2
  obtain rfl : job' = job := by
    rw [hrow] at hclaim
    exact (claimable_iff.mp hclaim).1.symm.trans hj
  exact ⟨w', x', size', secs', hx', hcall, l, hl, hrow⟩

/-! ## Non-vacuity -/

/-- `w2` begins a claim while `w1` holds the only row. -/
def heldRun : List LAct :=
  [.bulkInsert "j" [⟨"a", "hi"⟩] [], .begin "w1" (.claim "j" 1 60), .snapshot "w1", .visit "w1",
    .begin "w2" (.claim "j" 2 60)]

theorem passed_over_claimed_held : ∃ v, lockQueue.Reachable v ∧ ∃ r ∈ v.rows,
    r.status = .pending ∧ ∃ w x size secs, v.tx w = some x ∧
      x.call.call = .claim "j" size secs ∧ ∃ l ∈ x.locks, l.found = r := by
  obtain ⟨⟨tr₀, s₀⟩, he₀, x, hx, hc, s, hsnap, ⟨tr, v⟩, he, y, hy, hdone, hlocks, r, hrows, hst,
      hj, hid⟩ : ∃ p, LTS.exec LState.step ⟨0, 1, { rows := [] }⟩ heldRun = some p ∧
      ∃ x, p.2.tx "w2" = some x ∧ x.call.call = .claim "j" 2 60 ∧
      ∃ s, p.2.step (.snapshot "w2") = some s ∧
      ∃ q, LTS.exec LState.step s [.visit "w2", .next "w2"] = some q ∧
      ∃ y, q.2.tx "w2" = some y ∧ y.todo = [] ∧ y.locks.length = 0 ∧
      ∃ r, q.2.rows = [r] ∧ r.status = .pending ∧ r.jobId = "j" ∧ r.id < s.nextId :=
    ⟨_, rfl, _, rfl, rfl, _, rfl, _, rfl, _, rfl, rfl, rfl, _, rfl, rfl, rfl, by decide⟩
  have hr₀ : lockQueue.Reachable s₀ := ⟨tr₀, _, ⟨rfl, rfl⟩, LTS.path_of_exec he₀⟩
  have hp : lockQueue.Path s tr v := LTS.path_of_exec he
  have hgo : ∀ t ∈ tr, Going "w2" t.lbl := by
    intro t ht
    have hl := LTS.lbl_of_exec he t ht
    simp only [List.mem_cons, List.not_mem_nil, or_false] at hl
    rcases hl with hl | hl <;> rw [hl] <;> exact ⟨fun _ => by simp, by simp⟩
  have hmem : r ∈ v.rows := by
    rw [show v.rows = [r] from hrows]
    exact List.mem_cons_self
  have hstep : lockQueue.step s₀ (.snapshot "w2") s := hsnap
  have hfew : y.locks.length < 2 := by
    rw [hlocks]
    decide
  exact ⟨v, (hr₀.step hstep).path hp, r, hmem, hst,
    passed_over_claimed hr₀ hx hc hstep hp hgo hy hdone hfew r hmem hst hj hid⟩

end BatchSystem.Queue
