import BatchSystem.Queue.SkipLocked

/-!
# Transactions one by one

A transaction that is alone from BEGIN to COMMIT waits for nobody and passes over
nothing, so a claim takes the first claimable rows in id order. Hence every run
of the queue of atomic transactions is one of the queue with row locks
(`one_by_one`).
-/
namespace BatchSystem.Queue

open BatchSystem.Core Domain PromptItems RowLocks

/-! ## A transaction that is alone -/

/-- The transaction of `w` is the only one. -/
structure Only (s : LState) (w : WorkerId) (x : Txn Request ItemRow.id) : Prop where
  tx : s.tx w = some x
  others : ∀ w', w' ≠ w → s.tx w' = none

/-- Nothing but transactions has changed. -/
structure SameTable (s v : LState) : Prop where
  now : v.now = s.now
  nextId : v.nextId = s.nextId
  rows : v.rows = s.rows

theorem SameTable.trans {s u v : LState} (h : SameTable s u) (h' : SameTable u v) :
    SameTable s v :=
  ⟨h'.now.trans h.now, h'.nextId.trans h.nextId, h'.rows.trans h.rows⟩

theorem Only.locker {s : LState} (hi : LockInv s) {w : WorkerId} {x : Txn Request ItemRow.id}
    (h : Only s w x) (id : Nat) : s.db.locker id = none ∨ s.db.locker id = some w := by
  cases hl : s.db.locker id with
  | none => exact .inl rfl
  | some w' =>
    obtain ⟨y, hy, -⟩ := hi.ok.held id w' hl
    by_cases he : w' = w
    · exact .inr (he ▸ rfl)
    · exact absurd (hy.symm.trans (h.others w' he)) (by simp)

theorem Only.setTx {s : LState} {w : WorkerId} {x : Txn Request ItemRow.id} (h : Only s w x)
    {db : DB WorkerId Request ItemRow.id} (ht : db.txs = s.db.txs) (y : Txn Request ItemRow.id) :
    Only { s with db := db.setTx w y } w y := by
  refine ⟨if_pos rfl, fun w' hne => ?_⟩
  refine (if_neg hne).trans ?_
  rw [ht]
  exact h.others w' hne

/-- How a visit of a transaction that is alone ends. -/
structure Visited (s v : LState) (w : WorkerId) (x y : Txn Request ItemRow.id)
    (st : Stmt ItemRow.id) (id : Nat) (ids : List Nat) : Prop where
  only : Only v w y
  same : SameTable s v
  call : y.call = x.call
  todo : y.todo = x.todo
  scan : y.scan = some ids
  locks : (y.locks = x.locks ∧ ∀ r ∈ s.rows, r.id = id → st.cond (x.view r) = false) ∨
    ∃ r ∈ s.rows, r.id = id ∧ ∃ new, y.locks = x.put ⟨r, new⟩

theorem visit_alone {s : LState} (hi : LockInv s) {w : WorkerId} {x : Txn Request ItemRow.id}
    (h : Only s w x) {st : Stmt ItemRow.id} {rest : List (Stmt ItemRow.id)}
    (ht : x.todo = st :: rest) {id : Nat} {ids : List Nat} (hs : x.scan = some (id :: ids))
    (hf : st.full x.taken = false) :
    ∃ v y, lockQueue.step s (.visit w) v ∧ Visited s v w x y st id ids := by
  have hx : s.db.txs w = some x := h.tx
  obtain ⟨db, hdb⟩ : ∃ db, s.db.visit w x st id ids = some db := by
    unfold DB.visit
    split
    · exact ⟨_, rfl⟩
    · rw [if_pos (h.locker hi id)]
      split <;> exact ⟨_, rfl⟩
  have hstep : lockQueue.step s (.visit w) { s with db } := by
    show (s.db.step statements (.visit w)).map _ = _
    simp only [DB.step, hx, Option.bind_some, ht, hs, hf]
    rw [if_neg (by simp), hdb]
    rfl
  refine ⟨{ s with db }, ?_⟩
  have hm : RowLocks.Move statements s.db (.visit w) db :=
    move_of_visit hi.ok.keys hx ht hs hf hdb
  cases hm with
  | @pass _ y st' rest' k ks hy ht' hs' hpass =>
    obtain rfl := Option.some.inj (hy.symm.trans hx)
    obtain ⟨rfl, -⟩ : st = st' ∧ rest = rest' := by simpa [ht] using ht'
    obtain ⟨rfl, rfl⟩ : id = k ∧ ids = ks := by simpa [hs] using hs'
    refine ⟨_, hstep, h.setTx rfl _, ⟨rfl, rfl, rfl⟩, rfl, rfl, rfl, .inl ⟨rfl, fun r hr he => ?_⟩⟩
    refine (hpass r hr he).resolve_right fun hskip => ?_
    rcases h.locker hi id with hl | hl
    · exact hskip.2.1 hl
    · exact hskip.2.2 hl
  | @take _ y st' rest' r ks hy ht' hs' hf' hr hl hc =>
    obtain rfl := Option.some.inj (hy.symm.trans hx)
    obtain ⟨rfl, rfl⟩ : id = r.id ∧ ids = ks := by simpa [hs] using hs'
    exact ⟨_, hstep, ⟨if_pos rfl, fun w' hne => (if_neg hne).trans (h.others w' hne)⟩,
      ⟨rfl, rfl, rfl⟩, rfl, rfl, rfl, .inr ⟨r, hr, rfl, _, rfl⟩⟩

theorem next_alone {s : LState} {w : WorkerId} {x : Txn Request ItemRow.id} (h : Only s w x)
    {st : Stmt ItemRow.id} {rest : List (Stmt ItemRow.id)} (ht : x.todo = st :: rest)
    {ids : List Nat} (hs : x.scan = some ids) (hend : ids = [] ∨ st.full x.taken = true) :
    ∃ v y, lockQueue.step s (.next w) v ∧ Only v w y ∧ SameTable s v ∧ y.call = x.call ∧
      y.todo = rest ∧ y.scan = none ∧ y.locks = x.locks := by
  have hx : s.db.txs w = some x := h.tx
  refine ⟨_, { x with ran := x.ran ++ [st], todo := rest, scan := none, taken := 0 }, ?_,
    h.setTx rfl _, ⟨rfl, rfl, rfl⟩, rfl, rfl, rfl, rfl⟩
  show (s.db.step statements (.next w)).map _ = _
  simp only [DB.step, hx, Option.bind_some, ht, hs]
  rw [if_pos hend]
  rfl

theorem snapshot_alone {s : LState} {w : WorkerId} {x : Txn Request ItemRow.id} (h : Only s w x)
    {st : Stmt ItemRow.id} {rest : List (Stmt ItemRow.id)} (ht : x.todo = st :: rest)
    (hs : x.scan = none) :
    ∃ v y, lockQueue.step s (.snapshot w) v ∧ Only v w y ∧ SameTable s v ∧ y.call = x.call ∧
      y.todo = x.todo ∧ y.scan = some ((s.rows.filter fun r => st.cond (x.view r)).map ItemRow.id) ∧
        y.locks = x.locks := by
  have hx : s.db.txs w = some x := h.tx
  refine ⟨_, { x with scan := some ((s.rows.filter fun r => st.cond (x.view r)).map ItemRow.id) },
    ?_, h.setTx rfl _, ⟨rfl, rfl, rfl⟩, rfl, rfl, rfl, rfl⟩
  show (s.db.step statements (.snapshot w)).map _ = _
  simp only [DB.step, hx, Option.bind_some, ht, hs]
  rfl

/-! ## Plain calls -/

/-- A transaction that is alone gets to the end of its call. -/
def Completes (s : LState) (w : WorkerId) (x : Txn Request ItemRow.id) : Prop :=
  ∃ tr v y, lockQueue.Path s tr v ∧ Only v w y ∧ SameTable s v ∧ y.call = x.call ∧ y.todo = []

theorem Completes.after {s u : LState} {l : LAct} {w : WorkerId} {x y : Txn Request ItemRow.id}
    (hst : lockQueue.step s l u) (hsame : SameTable s u) (hcall : y.call = x.call)
    (h : Completes u w y) : Completes s w x := by
  obtain ⟨tr, v, z, hp, honly, hsame', hcall', htodo⟩ := h
  exact ⟨_, v, z, .cons hst hp, honly, hsame.trans hsame', hcall'.trans hcall, htodo⟩

/-- A statement that has its snapshot comes to its end. The induction is on what
it has still to visit. -/
theorem statement_completes {w : WorkerId} {st : Stmt ItemRow.id} {rest : List (Stmt ItemRow.id)}
    (hrest : ∀ (s : LState) (x : Txn Request ItemRow.id), lockQueue.Reachable s → Only s w x →
      x.todo = rest → x.scan = none → Completes s w x) (ids : List Nat) :
    ∀ (s : LState) (x : Txn Request ItemRow.id), lockQueue.Reachable s → Only s w x →
      x.todo = st :: rest → x.scan = some ids → Completes s w x := by
  induction ids with
  | nil =>
    intro s x hr h ht hs
    obtain ⟨v, y, hst, honly, hsame, hcall, htodo, hscan, -⟩ := next_alone h ht hs (.inl rfl)
    exact .after hst hsame hcall (hrest v y (hr.step hst) honly htodo hscan)
  | cons id ids ih =>
    intro s x hr h ht hs
    cases hf : st.full x.taken with
    | true =>
      obtain ⟨v, y, hst, honly, hsame, hcall, htodo, hscan, -⟩ := next_alone h ht hs (.inr hf)
      exact .after hst hsame hcall (hrest v y (hr.step hst) honly htodo hscan)
    | false =>
      obtain ⟨v, y, hst, hv⟩ := visit_alone (lockInv_reachable hr) h ht hs hf
      exact .after hst hv.same hv.call (ih v y (hr.step hst) hv.only (hv.todo.trans ht) hv.scan)

theorem call_completes {w : WorkerId} (todo : List (Stmt ItemRow.id)) :
    ∀ (s : LState) (x : Txn Request ItemRow.id), lockQueue.Reachable s → Only s w x →
      x.todo = todo → x.scan = none → Completes s w x := by
  induction todo with
  | nil =>
    intro s x hr h ht hs
    exact ⟨[], s, x, .nil, h, ⟨rfl, rfl, rfl⟩, rfl, ht⟩
  | cons st rest ih =>
    intro s x hr h ht hs
    obtain ⟨v, y, hst, honly, hsame, hcall, htodo, hscan, -⟩ := snapshot_alone h ht hs
    exact .after hst hsame hcall
      (statement_completes ih _ v y (hr.step hst) honly (htodo.trans ht) hscan)

/-! ## Claims -/

/-- A claim that is alone takes the first of the rows that it has to visit. -/
theorem claim_visits {w : WorkerId} {now : Int} {job : JobId} {size : Nat} {secs : Int}
    (rs : List ItemRow) :
    ∀ (s : LState) (x : Txn Request ItemRow.id), lockQueue.Reachable s → Only s w x →
      x.call = ⟨now, .claim job size secs⟩ → x.todo = [claimStmt w now job size secs] →
      x.scan = some (rs.map ItemRow.id) → (∀ r ∈ rs, r ∈ s.rows ∧ claimable job now r = true) →
      ∃ tr v y, lockQueue.Path s tr v ∧ Only v w y ∧ SameTable s v ∧ y.call = x.call ∧
        y.todo = [] ∧
        y.locks.map Lock.found = x.locks.map Lock.found ++ rs.take (size - x.locks.length) := by
  induction rs with
  | nil =>
    intro s x hr h hc ht hs hrs
    obtain ⟨v, y, hst, honly, hsame, hcall, htodo, -, hlocks⟩ := next_alone h ht hs (.inl rfl)
    exact ⟨_, v, y, .single hst, honly, hsame, hcall, htodo, by simp [hlocks]⟩
  | cons r rs ih =>
    intro s x hr h hc ht hs hrs
    have hi := lockInv_reachable hr
    obtain ⟨-, -, hsingle⟩ := hi.claim_stmt h.tx (by rw [hc]) ht
    obtain ⟨hlen, hout⟩ := hsingle.running (by simp [ht])
    cases hf : (claimStmt w now job size secs).full x.taken with
    | true =>
      obtain ⟨v, y, hst, honly, hsame, hcall, htodo, -, hlocks⟩ := next_alone h ht hs (.inr hf)
      simp only [Stmt.full, claimStmt, Option.any_some, decide_eq_true_eq] at hf
      refine ⟨_, v, y, .single hst, honly, hsame, hcall, htodo, ?_⟩
      rw [show size - x.locks.length = 0 by omega, hlocks]
      simp
    | false =>
      obtain ⟨v, y, hst, hv⟩ := visit_alone hi h ht hs hf
      obtain ⟨hrow, hcl⟩ := hrs r List.mem_cons_self
      have hfree : ∀ l ∈ x.locks, l.found.id ≠ r.id :=
        fun l hl he => hout _ hs l hl (he ▸ List.mem_cons_self)
      simp only [Stmt.full, claimStmt, Option.any_some, decide_eq_false_iff_not] at hf
      -- the row is claimable, so the visit takes it
      have hlocks : y.locks.map Lock.found = x.locks.map Lock.found ++ [r] := by
        rcases hv.locks with ⟨-, hno⟩ | ⟨r', hr', he, new, hput⟩
        · have := hno r hrow rfl
          rw [view_free hfree] at this
          exact absurd (hcl.symm.trans this) (by simp)
        · obtain rfl := List.inj_on_of_nodup_map hi.ok.keys hr' hrow he
          rw [hput, Txn.put, List.filter_eq_self.mpr fun l hl => by simpa using hfree l hl]
          simp
      have hylen : y.locks.length = x.locks.length + 1 := by
        have := congrArg List.length hlocks
        simpa using this
      obtain ⟨tr, u, z, hp, honly, hsame, hcall, htodo, hz⟩ := ih v y (hr.step hst) hv.only
        (hv.call.trans hc) (hv.todo.trans ht) hv.scan fun r' hr' => by
          rw [hv.same.rows]
          exact hrs r' (List.mem_cons_of_mem _ hr')
      refine ⟨_, u, z, .cons hst hp, honly, hv.same.trans hsame, hcall.trans hv.call, htodo, ?_⟩
      rw [hz, hlocks, hylen, show size - x.locks.length = size - (x.locks.length + 1) + 1 by omega,
        List.take_succ_cons]
      simp

/-! ## From BEGIN to COMMIT -/

/-- No transaction is open. -/
def Quiet (s : LState) : Prop := ∀ w, s.tx w = none

/-- A state of the queue with row locks between transactions. -/
structure Agrees (s : LState) (q : QState) : Prop where
  quiet : Quiet s
  now : s.now = q.now
  nextId : s.nextId = q.items.nextId
  rows : s.rows = q.items.rows

theorem begin_alone {s : LState} (hq : Quiet s) (w : WorkerId) (call : Call) (hp : call.proper) :
    ∃ v y, lockQueue.step s (.begin w call) v ∧ Only v w y ∧ SameTable s v ∧
      y.call = ⟨s.now, call⟩ ∧ y.todo = statements w ⟨s.now, call⟩ ∧ y.scan = none ∧
        y.locks = [] := by
  refine ⟨{ s with db := s.db.setTx w ⟨⟨s.now, call⟩, [], statements w ⟨s.now, call⟩, none, 0, []⟩ },
    _, ?_, ⟨if_pos rfl, fun w' hne => (if_neg hne).trans (hq w')⟩, ⟨rfl, rfl, rfl⟩, rfl, rfl, rfl,
    rfl⟩
  have hno : s.db.txs w = none := hq w
  show (if call.proper then s.run (.begin w ⟨s.now, call⟩) else none) = _
  rw [if_pos hp]
  simp only [LState.run, DB.step, hno, Option.isNone_none]
  rfl

theorem commit_alone {s : LState} {w : WorkerId} {x : Txn Request ItemRow.id} (h : Only s w x)
    (ht : x.todo = []) : ∃ v, lockQueue.step s (.commit w) v ∧ Quiet v ∧ v.now = s.now ∧
      v.nextId = s.nextId ∧ v.rows = s.rows.map x.view := by
  have hx : s.db.txs w = some x := h.tx
  refine ⟨{ s with db := s.db.release w (s.rows.map x.view) }, ?_, fun w' => ?_, rfl, rfl, rfl⟩
  · show (s.db.step statements (.commit w)).map _ = _
    simp only [DB.step, hx, Option.bind_some, ht]
    rfl
  · show (if w' = w then none else s.db.txs w') = none
    split
    · rfl
    · rename_i hne
      exact h.others w' hne

/-- A plain call that is alone. -/
theorem plain_alone {s : LState} (hr : lockQueue.Reachable s) (hq : Quiet s) (w : WorkerId)
    (call : Call) (hp : call.proper) (hc : Request.plain ⟨s.now, call⟩ = true) :
    ∃ tr v, lockQueue.Path s tr v ∧ Quiet v ∧ v.now = s.now ∧ v.nextId = s.nextId ∧
      v.rows = s.rows.map (applyAll (statements w ⟨s.now, call⟩)) := by
  obtain ⟨a, x, hst, honly, hsame, hcall, htodo, hscan, -⟩ := begin_alone hq w call hp
  have ha := hr.step hst
  obtain ⟨tr, b, y, hpath, honly', hsame', hcall', htodo'⟩ :=
    call_completes _ a x ha honly rfl hscan
  obtain ⟨v, hst', hquiet, hnow, hnext, hrows⟩ := commit_alone honly' htodo'
  have hreq : y.call = ⟨s.now, call⟩ := hcall'.trans hcall
  refine ⟨_, v, (LTS.Path.cons hst hpath).snoc hst', hquiet, hnow.trans (hsame.trans hsame').now,
    hnext.trans (hsame.trans hsame').nextId, ?_⟩
  rw [hrows, commit_rows (lockInv_reachable (ha.path hpath)) honly'.tx (hreq ▸ hc) htodo', hreq,
    (hsame.trans hsame').rows]

/-- A claim that is alone. -/
theorem claim_alone {s : LState} (hr : lockQueue.Reachable s) (hq : Quiet s) (w : WorkerId)
    (job : JobId) (size : Nat) (secs : Int) :
    ∃ tr v, lockQueue.Path s tr v ∧ Quiet v ∧ v.now = s.now ∧ v.nextId = s.nextId ∧
      v.rows = s.rows.map fun r =>
        if r ∈ (s.rows.filter (claimable job s.now)).take size then
          claimRow w (s.now + makeInterval secs) r
        else r := by
  obtain ⟨a, x, hst, honly, hsame, hcall, htodo, hscan, hlocks⟩ :=
    begin_alone hq w (.claim job size secs) trivial
  have ha := hr.step hst
  have htodo' : x.todo = [claimStmt w s.now job size secs] := htodo
  obtain ⟨b, y, hst₂, honly₂, hsame₂, hcall₂, htodo₂, hscan₂, hlocks₂⟩ :=
    snapshot_alone honly htodo' hscan
  have hb := ha.step hst₂
  have hview : ∀ r, x.view r = r := fun r => view_free fun l hl => by rw [hlocks] at hl; cases hl
  have hcand : y.scan = some ((a.rows.filter (claimable job s.now)).map ItemRow.id) := by
    rw [hscan₂]
    simp only [hview]
    rfl
  obtain ⟨tr, c, z, hpath, honly₃, hsame₃, hcall₃, htodo₃, hlocks₃⟩ :=
    claim_visits _ b y hb honly₂ (hcall₂.trans hcall) (htodo₂.trans htodo) hcand fun r hmem => by
      obtain ⟨h1, h2⟩ := List.mem_filter.mp hmem
      exact ⟨hsame₂.rows ▸ h1, h2⟩
  obtain ⟨v, hst₄, hquiet, hnow, hnext, hrows⟩ := commit_alone honly₃ htodo₃
  have hall := (hsame.trans hsame₂).trans hsame₃
  have hic := lockInv_reachable (hb.path hpath)
  have hcz : z.call.call = .claim job size secs := by rw [hcall₃, hcall₂, hcall]
  have hnowz : z.call.now = s.now := by rw [hcall₃, hcall₂, hcall]
  have hcl := hic.claim honly₃.tx hcz
  rw [hlocks₂, hlocks, List.map_nil, List.nil_append, List.length_nil, Nat.sub_zero,
    hsame.rows] at hlocks₃
  refine ⟨_, v, (LTS.Path.cons hst (LTS.Path.cons hst₂ hpath)).snoc hst₄, hquiet, hnow.trans hall.now,
    hnext.trans hall.nextId, ?_⟩
  rw [hrows, hall.rows]
  refine List.map_congr_left fun r hrow => ?_
  rw [← hlocks₃]
  split
  · rename_i hmem
    obtain ⟨l, hl, rfl⟩ := List.mem_map.mp hmem
    rw [view_lock (hic.ok.lockKeys w z honly₃.tx) hl rfl, hcl.new l hl, hnowz]
  · rename_i hmem
    refine view_free fun l hl he => hmem (List.mem_map.mpr ⟨l, hl, ?_⟩)
    have hrow' : r ∈ c.rows := by
      rw [hall.rows]
      exact hrow
    exact List.inj_on_of_nodup_map hic.ok.keys (hcl.found l hl).1 hrow' he

/-! ## Every run of the atomic queue -/

theorem transaction_alone {s : LState} (hr : lockQueue.Reachable s) {q q' : QState} {l : Tx}
    (h : Agrees s q) (hst : txStep q l = some q') :
    ∃ tr v, lockQueue.Path s tr v ∧ Agrees v q' := by
  cases l with
  | tick d =>
    cases hst
    have hstep : lockQueue.step s (.tick d) { s with now := s.now + d } := rfl
    refine ⟨_, _, .single hstep, h.quiet, ?_, h.nextId, h.rows⟩
    rw [h.now]
  | bulkInsert job items failed count =>
    simp only [txStep, Option.ite_none_right_eq_some, Option.some.injEq] at hst
    obtain ⟨-, rfl⟩ := hst
    obtain ⟨v, hv⟩ : ∃ v, s.step (.bulkInsert job items failed) = some v := ⟨_, rfl⟩
    have hstep : lockQueue.step s (.bulkInsert job items failed) v := hv
    cases hv
    refine ⟨_, _, .single hstep, h.quiet, h.now, ?_, ?_⟩
    · rw [bulkInsert_nextId, ← h.nextId]
    · rw [bulkInsert_rows, freshRows, ← h.rows, ← h.nextId]
      rfl
  | claimChunk job w size secs chunk =>
    simp only [txStep, Option.ite_none_right_eq_some, Option.some.injEq] at hst
    obtain ⟨-, rfl⟩ := hst
    obtain ⟨tr, v, hp, hquiet, hnow, hnext, hrows⟩ := claim_alone hr h.quiet w job size secs
    refine ⟨tr, v, hp, hquiet, hnow.trans h.now, hnext.trans h.nextId, ?_⟩
    rw [hrows, claimChunk_rows, h.rows, h.now]
    rfl
  | completeItems w results ref count =>
    simp only [txStep, Option.ite_none_right_eq_some, Option.some.injEq] at hst
    obtain ⟨⟨ht, -⟩, rfl⟩ := hst
    obtain ⟨tr, v, hp, hquiet, hnow, hnext, hrows⟩ :=
      plain_alone hr h.quiet w (.complete results ref) ht rfl
    refine ⟨tr, v, hp, hquiet, hnow.trans h.now,
      (hnext.trans h.nextId).trans (completeItems_nextId _ _ _ _).symm, ?_⟩
    rw [hrows, completeItems_rows (noRematch_of_terminal ht), h.rows]
    exact List.map_congr_left fun r _ => applyAll_complete (noRematch_of_terminal ht) r
  | renewLease w secs =>
    cases hst
    obtain ⟨tr, v, hp, hquiet, hnow, hnext, hrows⟩ :=
      plain_alone hr h.quiet w (.renew secs) trivial rfl
    refine ⟨tr, v, hp, hquiet, hnow.trans h.now, hnext.trans h.nextId, ?_⟩
    rw [hrows, renewLease_rows, h.rows, h.now]
    rfl

/-- **The atomic queue is the queue with row locks, one transaction at a time.**
Every run of the former is a run of the latter that leaves the same table. -/
theorem one_by_one {tr : List (Trans QState Tx)} {q : QState} (h : queue.Run tr q) :
    ∃ tr' s, lockQueue.Run tr' s ∧ Agrees s q := by
  refine h.induct (P := fun _ q => ∃ tr' s, lockQueue.Run tr' s ∧ Agrees s q) (fun q hq => ?_)
    fun tr q l q' _ ih hst => ?_
  · have hitems : q.items = .empty := hq
    refine ⟨[], ⟨q.now, 1, { rows := [] }⟩, .nil ⟨rfl, rfl⟩, fun w => rfl, rfl, ?_, ?_⟩ <;>
      rw [hitems] <;> rfl
  · obtain ⟨tr', s, hr, hagree⟩ := ih
    obtain ⟨tr₂, v, hp, hv⟩ := transaction_alone hr.reachable hagree hst
    exact ⟨_, v, hr.append hp, hv⟩

/-! ## Non-vacuity -/

/-- A claim and the renewal of its lease. -/
def renewedRun : List Tx :=
  [.bulkInsert "j" [⟨"a", "hi"⟩] [] 1, .claimChunk "j" "w1" 5 60 [⟨1, "a", "hi", 1⟩], .tick 5,
    .renewLease "w1" 60]

theorem one_by_one_renewed : ∃ tr s, lockQueue.Run tr s ∧ Quiet s ∧
    s.rows.map (fun r => (r.workerId, r.leaseUntil)) = [(some "w1", some 60000005)] := by
  obtain ⟨⟨tr, q⟩, he, hrows⟩ : ∃ p, LTS.exec txStep ⟨0, .empty⟩ renewedRun = some p ∧
      p.2.items.rows.map (fun r => (r.workerId, r.leaseUntil)) = [(some "w1", some 60000005)] :=
    ⟨_, rfl, by decide⟩
  have hr : queue.Run tr q := ⟨⟨0, .empty⟩, rfl, LTS.path_of_exec he⟩
  obtain ⟨tr', s, hs, hagree⟩ := one_by_one hr
  refine ⟨tr', s, hs, hagree.quiet, ?_⟩
  rw [hagree.rows]
  exact hrows

end BatchSystem.Queue
