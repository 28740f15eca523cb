import BatchSystem.Core.LTS
import BatchSystem.Core.Lists

/-!
# UPDATE statements under row locks

Transactions of UPDATE statements over one table at the isolation level READ
COMMITTED, one row at a time. A statement starts from a snapshot of the rows
that meet its condition and visits them in order. At each it locks the committed
version of that moment, checks the condition again and assigns; a row that
another transaction has locked makes it wait, or is passed over (SKIP LOCKED).
What a transaction has written is seen by others when it commits.

The rows have any type `R` with a key; `T` are the transactions, `C` the calls
that they run, and `prog` gives the statements of a call.

* `ok_step`: a locked row has one owner, and its committed version is the one
  that the owner found.
* `single_step`: a transaction of one statement holds rows that meet its
  condition as they are committed, and no more than its limit.
* `seen_step`: under `Owned`, a transaction without limits and skips sees, at
  its end, what its statements make of the table at that moment.
-/
namespace BatchSystem.Core.RowLocks

set_option linter.unusedSectionVars false

variable {T K R C : Type} [DecidableEq T] [DecidableEq K] {key : R → K}

/-- `UPDATE ... SET set WHERE cond`, with the LIMIT and the SKIP LOCKED of the
query that selects its rows. -/
structure Stmt (key : R → K) where
  cond : R → Bool
  set : R → R
  keeps : ∀ r, key (set r) = key r
  limit : Option Nat := none
  skipLocked : Bool := false

/-- A locked row: the version that was found and the one to be committed. -/
structure Lock (R : Type) where
  found : R
  new : R

/-- An open transaction. `scan`: the keys that the running statement, the first
of `todo`, has still to visit; `taken`: how many rows it has updated. -/
structure Txn (C : Type) (key : R → K) where
  call : C
  ran : List (Stmt key) := []
  todo : List (Stmt key)
  scan : Option (List K) := none
  taken : Nat := 0
  locks : List (Lock R) := []

structure DB (T C : Type) (key : R → K) where
  rows : List R
  locker : K → Option T := fun _ => none
  txs : T → Option (Txn C key) := fun _ => none

inductive Op (T C R : Type) where
  | begin (t : T) (call : C)
  | snapshot (t : T)
  | visit (t : T)
  | next (t : T)
  | commit (t : T)
  | abort (t : T)
  | insert (rs : List R)

/-- The version of a row that the transaction sees. -/
def Txn.view (x : Txn C key) (r : R) : R :=
  ((x.locks.find? fun l => key l.found = key r).map Lock.new).getD r

def Txn.put (x : Txn C key) (l : Lock R) : List (Lock R) :=
  x.locks.filter (fun l' => key l'.found ≠ key l.found) ++ [l]

/-- The running statement has reached its LIMIT. -/
def Stmt.full (st : Stmt key) (taken : Nat) : Bool := st.limit.any (· ≤ taken)

def DB.setTx (db : DB T C key) (t : T) (x : Txn C key) : DB T C key :=
  { db with txs := fun t' => if t' = t then some x else db.txs t' }

/-- The end of a transaction. -/
def DB.release (db : DB T C key) (t : T) (rows : List R) : DB T C key where
  rows := rows
  locker k := if db.locker k = some t then none else db.locker k
  txs t' := if t' = t then none else db.txs t'

/-- The running statement visits the row with key `k`. -/
def DB.visit (db : DB T C key) (t : T) (x : Txn C key) (st : Stmt key) (k : K) (ks : List K) :
    Option (DB T C key) :=
  let pass := db.setTx t { x with scan := some ks }
  match db.rows.find? fun r => key r = k with
  | none => some pass
  | some r =>
    if db.locker k = none ∨ db.locker k = some t then
      if st.cond (x.view r) then
        some ({ db with locker := fun k' => if k' = k then some t else db.locker k' }.setTx t
          { x with scan := some ks, taken := x.taken + 1, locks := x.put ⟨r, st.set (x.view r)⟩ })
      else some pass
    else if st.skipLocked then some pass else none

variable (prog : T → C → List (Stmt key))

def DB.step (db : DB T C key) : Op T C R → Option (DB T C key)
  | .begin t call =>
    if (db.txs t).isNone then some (db.setTx t { call, todo := prog t call }) else none
  | .snapshot t => (db.txs t).bind fun x => match x.todo, x.scan with
    | st :: _, none =>
      some (db.setTx t { x with scan := some ((db.rows.filter fun r => st.cond (x.view r)).map key) })
    | _, _ => none
  | .visit t => (db.txs t).bind fun x => match x.todo, x.scan with
    | st :: _, some (k :: ks) => if st.full x.taken then none else db.visit t x st k ks
    | _, _ => none
  | .next t => (db.txs t).bind fun x => match x.todo, x.scan with
    | st :: rest, some ks =>
      if ks = [] ∨ st.full x.taken = true then
        some (db.setTx t { x with ran := x.ran ++ [st], todo := rest, scan := none, taken := 0 })
      else none
    | _, _ => none
  | .commit t => (db.txs t).bind fun x => match x.todo with
    | [] => some (db.release t (db.rows.map x.view))
    | _ => none
  | .abort t => (db.txs t).map fun _ => db.release t db.rows
  | .insert rs =>
    if (rs.map key).Nodup ∧ ∀ r ∈ rs, key r ∉ db.rows.map key then
      some { db with rows := db.rows ++ rs }
    else none

/-! ## What a step requires and does -/

inductive Move (db : DB T C key) : Op T C R → DB T C key → Prop
  | begin {t : T} {call : C} (h : db.txs t = none) :
      Move db (.begin t call) (db.setTx t { call, todo := prog t call })
  | snapshot {t : T} {x : Txn C key} {st : Stmt key} {rest : List (Stmt key)}
      (hx : db.txs t = some x) (ht : x.todo = st :: rest) (hs : x.scan = none) :
      Move db (.snapshot t) (db.setTx t
        { x with scan := some ((db.rows.filter fun r => st.cond (x.view r)).map key) })
  /-- The row is gone, does not meet the condition any more, or is passed over. -/
  | pass {t : T} {x : Txn C key} {st : Stmt key} {rest : List (Stmt key)} {k : K} {ks : List K}
      (hx : db.txs t = some x) (ht : x.todo = st :: rest) (hs : x.scan = some (k :: ks))
      (hr : ∀ r ∈ db.rows, key r = k → st.cond (x.view r) = false ∨
        st.skipLocked = true ∧ db.locker k ≠ none ∧ db.locker k ≠ some t) :
      Move db (.visit t) (db.setTx t { x with scan := some ks })
  | take {t : T} {x : Txn C key} {st : Stmt key} {rest : List (Stmt key)} {r : R} {ks : List K}
      (hx : db.txs t = some x) (ht : x.todo = st :: rest) (hs : x.scan = some (key r :: ks))
      (hf : st.full x.taken = false) (hr : r ∈ db.rows)
      (hl : db.locker (key r) = none ∨ db.locker (key r) = some t)
      (hc : st.cond (x.view r) = true) :
      Move db (.visit t)
        ({ db with locker := fun k' => if k' = key r then some t else db.locker k' }.setTx t
          { x with scan := some ks, taken := x.taken + 1, locks := x.put ⟨r, st.set (x.view r)⟩ })
  | next {t : T} {x : Txn C key} {st : Stmt key} {rest : List (Stmt key)} {ks : List K}
      (hx : db.txs t = some x) (ht : x.todo = st :: rest) (hs : x.scan = some ks)
      (hf : ks = [] ∨ st.full x.taken = true) :
      Move db (.next t)
        (db.setTx t { x with ran := x.ran ++ [st], todo := rest, scan := none, taken := 0 })
  | commit {t : T} {x : Txn C key} (hx : db.txs t = some x) (ht : x.todo = []) :
      Move db (.commit t) (db.release t (db.rows.map x.view))
  | abort {t : T} {x : Txn C key} (hx : db.txs t = some x) :
      Move db (.abort t) (db.release t db.rows)
  | insert {rs : List R} (hn : (rs.map key).Nodup) (hf : ∀ r ∈ rs, key r ∉ db.rows.map key) :
      Move db (.insert rs) { db with rows := db.rows ++ rs }

variable {prog} {db v : DB T C key} {op : Op T C R}

theorem move_of_visit (hn : (db.rows.map key).Nodup) {t : T} {x : Txn C key} {st : Stmt key}
    {rest : List (Stmt key)} {k : K} {ks : List K} (hx : db.txs t = some x)
    (ht : x.todo = st :: rest) (hs : x.scan = some (k :: ks)) (hf : st.full x.taken = false)
    (h : db.visit t x st k ks = some v) : Move prog db (.visit t) v := by
  unfold DB.visit at h
  split at h
  · rename_i hnone
    cases h
    refine .pass hx ht hs fun r hr hk => ?_
    have := List.find?_eq_none.mp hnone r hr
    simp [hk] at this
  · rename_i r hsome
    have hr := List.mem_of_find?_eq_some hsome
    have hk : key r = k := by simpa using List.find?_some hsome
    subst hk
    have huniq : ∀ r' ∈ db.rows, key r' = key r → r' = r :=
      fun r' hr' he => List.inj_on_of_nodup_map hn hr' hr he
    split at h
    · rename_i hl
      split at h
      · rename_i hc
        cases h
        exact .take hx ht hs hf hr hl hc
      · rename_i hc
        cases h
        refine .pass hx ht hs fun r' hr' he => .inl ?_
        rw [huniq r' hr' he]
        simpa using hc
    · rename_i hl
      split at h
      · rename_i hskip
        cases h
        exact .pass hx ht hs fun _ _ _ => .inr ⟨hskip, not_or.mp hl⟩
      · cases h

theorem move_of_step (hn : (db.rows.map key).Nodup) (h : db.step prog op = some v) :
    Move prog db op v := by
  cases op with
  | begin t call =>
    simp only [DB.step, Option.ite_none_right_eq_some, Option.some.injEq,
      Option.isNone_iff_eq_none] at h
    obtain ⟨hx, rfl⟩ := h
    exact .begin hx
  | snapshot t =>
    simp only [DB.step, Option.bind_eq_some_iff] at h
    obtain ⟨x, hx, h⟩ := h
    split at h
    · rename_i ht hs
      cases h
      exact .snapshot hx ht hs
    · cases h
  | visit t =>
    simp only [DB.step, Option.bind_eq_some_iff] at h
    obtain ⟨x, hx, h⟩ := h
    split at h
    · rename_i ht hs
      simp only [Option.ite_none_left_eq_some, Bool.not_eq_true] at h
      exact move_of_visit hn hx ht hs h.1 h.2
    · cases h
  | next t =>
    simp only [DB.step, Option.bind_eq_some_iff] at h
    obtain ⟨x, hx, h⟩ := h
    split at h
    · rename_i ht hs
      simp only [Option.ite_none_right_eq_some, Option.some.injEq] at h
      obtain ⟨hf, rfl⟩ := h
      exact .next hx ht hs hf
    · cases h
  | commit t =>
    simp only [DB.step, Option.bind_eq_some_iff] at h
    obtain ⟨x, hx, h⟩ := h
    split at h
    · rename_i ht
      cases h
      exact .commit hx ht
    · cases h
  | abort t =>
    simp only [DB.step, Option.map_eq_some_iff] at h
    obtain ⟨x, hx, rfl⟩ := h
    exact .abort hx
  | insert rs =>
    simp only [DB.step, Option.ite_none_right_eq_some, Option.some.injEq] at h
    obtain ⟨⟨h1, h2⟩, rfl⟩ := h
    exact .insert h1 h2

/-! ## Locks -/

theorem of_setTx {t t' : T} {x y : Txn C key} (h : (db.setTx t x).txs t' = some y) :
    (t' = t ∧ y = x) ∨ (t' ≠ t ∧ db.txs t' = some y) := by
  simp only [DB.setTx] at h
  split at h
  · rename_i he
    exact .inl ⟨he, (Option.some.inj h).symm⟩
  · rename_i hne
    exact .inr ⟨hne, h⟩

theorem of_release {t t' : T} {rows : List R} {y : Txn C key}
    (h : (db.release t rows).txs t' = some y) : t' ≠ t ∧ db.txs t' = some y := by
  simp only [DB.release] at h
  split at h
  · cases h
  · rename_i hne
    exact ⟨hne, h⟩

theorem mem_put {x : Txn C key} {l l' : Lock R} :
    l' ∈ x.put l ↔ l' = l ∨ (l' ∈ x.locks ∧ key l'.found ≠ key l.found) := by
  simp only [Txn.put, List.mem_append, List.mem_filter, List.mem_singleton, decide_eq_true_eq]
  exact or_comm

theorem put_nodup {x : Txn C key} (h : (x.locks.map fun l => key l.found).Nodup) (l : Lock R) :
    ((x.put l).map fun l => key l.found).Nodup := by
  rw [Txn.put, List.map_append]
  refine List.nodup_append.mpr ⟨(List.filter_sublist.map _).nodup h, by simp, ?_⟩
  intro a ha b hb
  simp only [List.map_cons, List.map_nil, List.mem_singleton] at hb
  obtain ⟨l', hl', rfl⟩ := List.mem_map.mp ha
  rw [hb]
  simpa using (List.mem_filter.mp hl').2

theorem view_free {x : Txn C key} {r : R} (h : ∀ l ∈ x.locks, key l.found ≠ key r) :
    x.view r = r := by
  unfold Txn.view
  rw [List.find?_eq_none.mpr fun l hl => by simpa using h l hl]
  rfl

theorem view_lock {x : Txn C key} (hn : (x.locks.map fun l => key l.found).Nodup) {l : Lock R}
    (hl : l ∈ x.locks) {r : R} (hr : key r = key l.found) : x.view r = l.new := by
  unfold Txn.view
  cases hf : x.locks.find? fun l => key l.found = key r with
  | none =>
    have := List.find?_eq_none.mp hf l hl
    simp [hr] at this
  | some l' =>
    have hk : key l'.found = key l.found := by
      rw [← hr]
      simpa using List.find?_some hf
    rw [List.inj_on_of_nodup_map hn (List.mem_of_find?_eq_some hf) hl hk]
    rfl

/-- A locked row, or one that the transaction sees as it is. -/
theorem view_cases (x : Txn C key) (r : R) :
    (∃ l ∈ x.locks, key l.found = key r) ∨ x.view r = r := by
  by_cases h : ∃ l ∈ x.locks, key l.found = key r
  · exact .inl h
  · exact .inr (view_free fun l hl he => h ⟨l, hl, he⟩)

theorem view_put {x x' : Txn C key} {l : Lock R} (hx : x'.locks = x.put l)
    (hn : (x.locks.map fun l => key l.found).Nodup) (r : R) :
    x'.view r = if key r = key l.found then l.new else x.view r := by
  have hn' : (x'.locks.map fun l => key l.found).Nodup := hx ▸ put_nodup hn l
  split
  · rename_i he
    exact view_lock hn' (hx ▸ mem_put.mpr (.inl rfl)) he
  · rename_i hne
    rcases view_cases x r with ⟨l', hl', he⟩ | hv
    · have hmem : l' ∈ x'.locks := hx ▸ mem_put.mpr (.inr ⟨hl', fun e => hne (he.symm.trans e)⟩)
      rw [view_lock hn' hmem he.symm, view_lock hn hl' he.symm]
    · by_cases hl : ∃ l' ∈ x.locks, key l'.found = key r
      · obtain ⟨l', hl', he⟩ := hl
        have hmem : l' ∈ x'.locks := hx ▸ mem_put.mpr (.inr ⟨hl', fun e => hne (he.symm.trans e)⟩)
        rw [view_lock hn' hmem he.symm, view_lock hn hl' he.symm]
      · rw [hv]
        refine view_free fun l' hl' he => ?_
        rw [hx] at hl'
        rcases mem_put.mp hl' with rfl | ⟨hmem, -⟩
        · exact hne he.symm
        · exact hl ⟨l', hmem, he⟩

/-- Locks have one owner, who found the version that is still committed. -/
structure Ok (db : DB T C key) : Prop where
  keys : (db.rows.map key).Nodup
  found : ∀ t x, db.txs t = some x → ∀ l ∈ x.locks, l.found ∈ db.rows ∧ key l.new = key l.found
  locker : ∀ t x, db.txs t = some x → ∀ l ∈ x.locks, db.locker (key l.found) = some t
  lockKeys : ∀ t x, db.txs t = some x → (x.locks.map fun l => key l.found).Nodup
  held : ∀ k t, db.locker k = some t →
    ∃ x, db.txs t = some x ∧ ∃ l ∈ x.locks, key l.found = k
  scanKeys : ∀ t x, db.txs t = some x → ∀ ks, x.scan = some ks → ks.Nodup

theorem Ok.view_key (h : Ok db) {t : T} {x : Txn C key} (hx : db.txs t = some x) (r : R) :
    key (x.view r) = key r := by
  rcases view_cases x r with ⟨l, hl, he⟩ | hv
  · rw [view_lock (h.lockKeys t x hx) hl he.symm, (h.found t x hx l hl).2, he]
  · rw [hv]

/-- Two transactions never hold the same row. -/
theorem Ok.exclusive (h : Ok db) {t t' : T} {x x' : Txn C key} (hx : db.txs t = some x)
    (hx' : db.txs t' = some x') {l l' : Lock R} (hl : l ∈ x.locks) (hl' : l' ∈ x'.locks)
    (he : key l.found = key l'.found) : t = t' := by
  have h1 := h.locker t x hx l hl
  have h2 := h.locker t' x' hx' l' hl'
  rw [he, h2] at h1
  exact (Option.some.inj h1).symm

/-- What others have locked, a transaction sees as committed. -/
theorem Ok.view_other (h : Ok db) {t t' : T} {x x' : Txn C key} (hx : db.txs t = some x)
    (hx' : db.txs t' = some x') (hne : t' ≠ t) {l : Lock R} (hl : l ∈ x'.locks) :
    x.view l.found = l.found :=
  view_free fun _ hl' he => hne (h.exclusive hx' hx hl hl' he.symm)

/-- The transaction moves on with the locks that it has. -/
theorem Ok.setTx (h : Ok db) {t : T} {x x' : Txn C key} (hx : db.txs t = some x)
    (hl : x'.locks = x.locks) (hs : ∀ ks, x'.scan = some ks → ks.Nodup) : Ok (db.setTx t x') := by
  refine ⟨h.keys, fun t' y hy => ?_, fun t' y hy => ?_, fun t' y hy => ?_, fun k t' hk => ?_,
    fun t' y hy => ?_⟩
  · rcases of_setTx hy with ⟨-, rfl⟩ | ⟨-, hy⟩
    · rw [hl]
      exact h.found t x hx
    · exact h.found t' y hy
  · rcases of_setTx hy with ⟨rfl, rfl⟩ | ⟨-, hy⟩
    · rw [hl]
      exact h.locker t' x hx
    · exact h.locker t' y hy
  · rcases of_setTx hy with ⟨-, rfl⟩ | ⟨-, hy⟩
    · rw [hl]
      exact h.lockKeys t x hx
    · exact h.lockKeys t' y hy
  · obtain ⟨y, hy, l, hm, he⟩ := h.held k t' hk
    by_cases ht : t' = t
    · subst ht
      obtain rfl := Option.some.inj (hx.symm.trans hy)
      exact ⟨x', if_pos rfl, l, hl ▸ hm, he⟩
    · exact ⟨y, (if_neg ht).trans hy, l, hm, he⟩
  · rcases of_setTx hy with ⟨-, rfl⟩ | ⟨-, hy⟩
    · exact hs
    · exact h.scanKeys t' y hy

theorem Ok.take (h : Ok db) {t : T} {x x' : Txn C key} (hx : db.txs t = some x) {l : Lock R}
    (hr : l.found ∈ db.rows)
    (hfree : db.locker (key l.found) = none ∨ db.locker (key l.found) = some t)
    (hk : key l.new = key l.found) (hl : x'.locks = x.put l)
    (hs : ∀ ks, x'.scan = some ks → ks.Nodup) :
    Ok ({ db with locker := fun k => if k = key l.found then some t else db.locker k }.setTx
      t x') := by
  have other : ∀ {t' y}, t' ≠ t → db.txs t' = some y → ∀ l' ∈ y.locks,
      key l'.found ≠ key l.found := by
    intro t' y hne hy l' hl' he
    have := h.locker t' y hy l' hl'
    rw [he] at this
    rcases hfree with hf | hf <;> rw [hf] at this
    · cases this
    · exact hne (Option.some.inj this).symm
  refine ⟨h.keys, fun t' y hy l' hl' => ?_, fun t' y hy l' hl' => ?_, fun t' y hy => ?_,
    fun k t' hkt => ?_, fun t' y hy => ?_⟩
  · rcases of_setTx hy with ⟨-, rfl⟩ | ⟨-, hy⟩
    · rw [hl] at hl'
      rcases mem_put.mp hl' with rfl | ⟨hm, -⟩
      · exact ⟨hr, hk⟩
      · exact h.found t x hx l' hm
    · exact h.found t' y hy l' hl'
  · rcases of_setTx hy with ⟨rfl, rfl⟩ | ⟨hne, hy⟩
    · rw [hl] at hl'
      rcases mem_put.mp hl' with rfl | ⟨hm, hne⟩
      · exact if_pos rfl
      · exact (if_neg hne).trans (h.locker t' x hx l' hm)
    · exact (if_neg (other hne hy l' hl')).trans (h.locker t' y hy l' hl')
  · rcases of_setTx hy with ⟨-, rfl⟩ | ⟨-, hy⟩
    · rw [hl]
      exact put_nodup (h.lockKeys t x hx) l
    · exact h.lockKeys t' y hy
  · simp only [DB.setTx] at hkt ⊢
    by_cases he : k = key l.found
    · rw [if_pos he] at hkt
      cases hkt
      exact ⟨x', if_pos rfl, l, hl ▸ mem_put.mpr (.inl rfl), he.symm⟩
    · rw [if_neg he] at hkt
      obtain ⟨y, hy, l', hm, hke⟩ := h.held k t' hkt
      by_cases ht : t' = t
      · subst ht
        obtain rfl := Option.some.inj (hx.symm.trans hy)
        refine ⟨x', if_pos rfl, l', hl ▸ mem_put.mpr (.inr ⟨hm, ?_⟩), hke⟩
        rw [hke]
        exact he
      · exact ⟨y, (if_neg ht).trans hy, l', hm, hke⟩
  · rcases of_setTx hy with ⟨-, rfl⟩ | ⟨-, hy⟩
    · exact hs
    · exact h.scanKeys t' y hy

/-- A transaction ends: the rows that others have locked stay. -/
theorem Ok.release (h : Ok db) (t : T) {f : R → R} (hk : ∀ r, key (f r) = key r)
    (hf : ∀ t' x, t' ≠ t → db.txs t' = some x → ∀ l ∈ x.locks, f l.found = l.found) :
    Ok (db.release t (db.rows.map f)) := by
  refine ⟨?_, fun t' y hy l hl => ?_, fun t' y hy l hl => ?_, fun t' y hy => ?_,
    fun k t' hkt => ?_, fun t' y hy => ?_⟩
  · show ((db.rows.map f).map key).Nodup
    rw [List.map_map, show key ∘ f = key from funext hk]
    exact h.keys
  · obtain ⟨hne, hy⟩ := of_release hy
    obtain ⟨hm, hn⟩ := h.found t' y hy l hl
    exact ⟨List.mem_map.mpr ⟨_, hm, hf t' y hne hy l hl⟩, hn⟩
  · obtain ⟨hne, hy⟩ := of_release hy
    have := h.locker t' y hy l hl
    refine (if_neg ?_).trans this
    rw [this]
    exact fun e => hne (Option.some.inj e)
  · exact h.lockKeys t' y (of_release hy).2
  · simp only [DB.release] at hkt ⊢
    split at hkt
    · cases hkt
    · rename_i hne
      obtain ⟨y, hy, hl⟩ := h.held k t' hkt
      refine ⟨y, (if_neg fun e => hne ?_).trans hy, hl⟩
      rw [hkt, e]
  · exact h.scanKeys t' y (of_release hy).2

theorem ok_step (h : Ok db) (hm : Move prog db op v) : Ok v := by
  cases hm with
  | @begin t call hx =>
    have none_of : ∀ {y l}, db.txs t = some y → l ∈ y.locks → False := by
      intro y l hy
      rw [hx] at hy
      cases hy
    refine ⟨h.keys, fun t' y hy => ?_, fun t' y hy => ?_, fun t' y hy => ?_, fun k t' hk => ?_,
      fun t' y hy => ?_⟩
    · rcases of_setTx hy with ⟨-, rfl⟩ | ⟨-, hy⟩
      · intro l hl
        cases hl
      · exact h.found t' y hy
    · rcases of_setTx hy with ⟨-, rfl⟩ | ⟨-, hy⟩
      · intro l hl
        cases hl
      · exact h.locker t' y hy
    · rcases of_setTx hy with ⟨-, rfl⟩ | ⟨-, hy⟩
      · exact .nil
      · exact h.lockKeys t' y hy
    · obtain ⟨y, hy, l, hl, he⟩ := h.held k t' hk
      refine ⟨y, (if_neg ?_).trans hy, l, hl, he⟩
      rintro rfl
      exact none_of hy hl
    · rcases of_setTx hy with ⟨-, rfl⟩ | ⟨-, hy⟩
      · intro ks hks
        cases hks
      · exact h.scanKeys t' y hy
  | snapshot hx ht hs =>
    refine h.setTx hx rfl fun ks hks => ?_
    cases hks
    exact (List.filter_sublist.map _).nodup h.keys
  | pass hx ht hs hr =>
    refine h.setTx hx rfl fun ks' hks => ?_
    cases hks
    exact (List.nodup_cons.mp (h.scanKeys _ _ hx _ hs)).2
  | @take t x st rest r ks hx ht hs hf hr hl hc =>
    refine h.take (l := ⟨r, st.set (x.view r)⟩) hx hr hl ?_ rfl fun ks' hks => ?_
    · exact (st.keeps _).trans (h.view_key hx r)
    · cases hks
      exact (List.nodup_cons.mp (h.scanKeys _ _ hx _ hs)).2
  | next hx ht hs hf =>
    refine h.setTx hx rfl fun ks' hks => ?_
    cases hks
  | @commit t x hx ht =>
    exact h.release t (h.view_key hx) fun t' y hne hy l hl => h.view_other hx hy hne hl
  | @abort t x hx =>
    have := h.release t (f := id) (fun _ => rfl) fun _ _ _ _ _ _ => rfl
    rwa [List.map_id] at this
  | @insert rs hn hf =>
    refine ⟨?_, fun t x hx l hl => ?_, h.locker, h.lockKeys, h.held, h.scanKeys⟩
    · show ((db.rows ++ rs).map key).Nodup
      rw [List.map_append]
      refine List.nodup_append.mpr ⟨h.keys, hn, fun a ha b hb he => ?_⟩
      obtain ⟨r, hr, rfl⟩ := List.mem_map.mp hb
      exact hf r hr (he ▸ ha)
    · obtain ⟨h1, h2⟩ := h.found t x hx l hl
      exact ⟨List.mem_append_left _ h1, h2⟩

/-! ## What a transaction has done -/

/-- The statements of a call are those that ran and those that are to run. -/
def Programmed (prog : T → C → List (Stmt key)) (db : DB T C key) : Prop :=
  ∀ t x, db.txs t = some x → prog t x.call = x.ran ++ x.todo

theorem programmed_step (h : Programmed prog db) (hm : Move prog db op v) : Programmed prog v := by
  have moved : ∀ {t : T} {x x' : Txn C key}, db.txs t = some x → x'.call = x.call →
      x'.ran ++ x'.todo = x.ran ++ x.todo → Programmed prog (db.setTx t x') := by
    intro t x x' hx hc he t' y hy
    rcases of_setTx hy with ⟨rfl, rfl⟩ | ⟨-, hy⟩
    · rw [hc, he]
      exact h t' x hx
    · exact h t' y hy
  cases hm with
  | begin hx =>
    intro t' y hy
    rcases of_setTx hy with ⟨rfl, rfl⟩ | ⟨-, hy⟩
    · rfl
    · exact h t' y hy
  | snapshot hx | pass hx | take hx => exact moved hx rfl rfl
  | next hx ht => exact moved hx rfl (by rw [ht, List.append_assoc]; rfl)
  | commit | abort => exact fun t' y hy => h t' y (of_release hy).2
  | insert => exact h

/-- The only statement of a transaction, running or over. -/
structure Single (st : Stmt key) (x : Txn C key) : Prop where
  locks : ∀ l ∈ x.locks, st.cond l.found = true ∧ l.new = st.set l.found
  limit : ∀ m, st.limit = some m → x.locks.length ≤ m
  running : x.todo ≠ [] → x.locks.length = x.taken ∧
    ∀ ks, x.scan = some ks → ∀ l ∈ x.locks, key l.found ∉ ks
  fresh : x.todo ≠ [] → x.scan = none → x.locks = []

/-- Every transaction of one statement. -/
def Singles (prog : T → C → List (Stmt key)) (db : DB T C key) : Prop :=
  ∀ t x, db.txs t = some x → ∀ st, prog t x.call = [st] → Single st x

/-- The running statement of a transaction of one statement. -/
theorem Programmed.only (h : Programmed prog db) {t : T} {x : Txn C key} (hx : db.txs t = some x)
    {st st' : Stmt key} {rest : List (Stmt key)} (hp : prog t x.call = [st])
    (ht : x.todo = st' :: rest) : st' = st ∧ rest = [] := by
  have := h t x hx
  rw [hp, ht] at this
  cases hr : x.ran with
  | nil =>
    rw [hr] at this
    simp only [List.nil_append, List.cons.injEq] at this
    exact ⟨this.1.symm, this.2.symm⟩
  | cons a ran =>
    rw [hr] at this
    simp at this

theorem single_step (hok : Ok db) (hp : Programmed prog db) (h : Singles prog db)
    (hm : Move prog db op v) : Singles prog v := by
  intro t' y hy st hst
  cases hm with
  | begin hx =>
    rcases of_setTx hy with ⟨rfl, rfl⟩ | ⟨-, hy⟩
    · exact ⟨fun l hl => (nomatch hl), fun m _ => Nat.zero_le m,
        fun _ => ⟨rfl, fun ks hks => by cases hks⟩, fun _ _ => rfl⟩
    · exact h t' y hy st hst
  | snapshot hx ht hs =>
    rcases of_setTx hy with ⟨rfl, rfl⟩ | ⟨-, hy⟩
    · have hi := h t' _ hx st hst
      have hne := hi.fresh (by simp [ht]) hs
      refine ⟨hi.locks, hi.limit, fun hn => ⟨(hi.running hn).1, fun ks _ l hl => ?_⟩, fun _ hn => ?_⟩
      · simp only at hl
        rw [hne] at hl
        cases hl
      · cases hn
    · exact h t' y hy st hst
  | pass hx ht hs =>
    rcases of_setTx hy with ⟨rfl, rfl⟩ | ⟨-, hy⟩
    · have hi := h t' _ hx st hst
      refine ⟨hi.locks, hi.limit, fun hn => ⟨(hi.running hn).1, fun ks hks l hl hm => ?_⟩,
        fun _ hn => ?_⟩
      · cases hks
        exact (hi.running hn).2 _ hs l hl (List.mem_cons_of_mem _ hm)
      · cases hn
    · exact h t' y hy st hst
  | @take t x st' rest r ks hx ht hs hf hr hl hc =>
    rcases of_setTx hy with ⟨rfl, rfl⟩ | ⟨-, hy⟩
    · have hi := h t' _ hx st hst
      obtain ⟨rfl, rfl⟩ := hp.only hx hst ht
      obtain ⟨hlen, hout⟩ := hi.running (by simp [ht])
      -- the row is visited for the first time
      have hnew : ∀ l ∈ x.locks, key l.found ≠ key r :=
        fun l hl he => hout _ hs l hl (he ▸ List.mem_cons_self)
      have hview : x.view r = r := view_free hnew
      have hput : x.put ⟨r, st'.set (x.view r)⟩ = x.locks ++ [⟨r, st'.set r⟩] := by
        rw [Txn.put, List.filter_eq_self.mpr fun l hl => by simpa using hnew l hl, hview]
      rw [hview] at hc
      refine ⟨fun l hl => ?_, fun m hm => ?_, fun _ => ⟨?_, fun ks' hks' l hl hm => ?_⟩,
        fun _ hn => ?_⟩
      · simp only [hput, List.mem_append, List.mem_singleton] at hl
        rcases hl with hl | rfl
        · exact hi.locks l hl
        · exact ⟨hc, rfl⟩
      · simp only [hput, List.length_append, List.length_singleton]
        simp only [Stmt.full, hm, Option.any_some, decide_eq_false_iff_not] at hf
        omega
      · simp only [hput, List.length_append, List.length_singleton, hlen]
      · cases hks'
        simp only [hput, List.mem_append, List.mem_singleton] at hl
        rcases hl with hl | rfl
        · exact hout _ hs l hl (List.mem_cons_of_mem _ hm)
        · exact (List.nodup_cons.mp (hok.scanKeys _ _ hx _ hs)).1 hm
      · cases hn
    · exact h t' y hy st hst
  | next hx ht hs =>
    rcases of_setTx hy with ⟨rfl, rfl⟩ | ⟨-, hy⟩
    · have hi := h t' _ hx st hst
      obtain ⟨-, rfl⟩ := hp.only hx hst ht
      exact ⟨hi.locks, hi.limit, fun hn => absurd rfl hn, fun hn => absurd rfl hn⟩
    · exact h t' y hy st hst
  | commit | abort => exact h t' y (of_release hy).2 st hst
  | insert => exact h t' y hy st hst

/-! ## A transaction sees what its statements make of the table -/

/-- The statement on one row. -/
def Stmt.apply (st : Stmt key) (r : R) : R := if st.cond r then st.set r else r

/-- The statements one after another. -/
def applyAll (sts : List (Stmt key)) (r : R) : R := sts.foldl (fun r st => st.apply r) r

theorem applyAll_snoc (sts : List (Stmt key)) (st : Stmt key) (r : R) :
    applyAll (sts ++ [st]) r = st.apply (applyAll sts r) := by
  simp [applyAll]

theorem applyAll_none {sts : List (Stmt key)} {r : R} (h : ∀ st ∈ sts, st.cond r = false) :
    applyAll sts r = r := by
  induction sts with
  | nil => rfl
  | cons st rest ih =>
    have hst : st.apply r = r := by
      unfold Stmt.apply
      rw [h st List.mem_cons_self]
      rfl
    rw [applyAll, List.foldl_cons, hst]
    exact ih fun st' h' => h st' (List.mem_cons_of_mem _ h')

/-- `mine t r`: the row belongs to `t`. The statements of a plain call take all
rows of their transaction that they find, and no statement gives a row to
another transaction. -/
structure Owned (prog : T → C → List (Stmt key)) (mine : T → R → Bool) (plain : C → Bool) :
    Prop where
  plain : ∀ t c, plain c = true → ∀ st ∈ prog t c, st.limit = none ∧ st.skipLocked = false ∧
    ∀ r, st.cond r = true → mine t r = true
  others : ∀ t c, ∀ st ∈ prog t c, ∀ r, st.cond r = true → ∀ t', t' ≠ t →
    mine t' (st.set r) = false

/-- What a transaction will write belongs to nobody else. -/
def Apart (mine : T → R → Bool) (db : DB T C key) : Prop :=
  ∀ t x, db.txs t = some x → ∀ l ∈ x.locks, ∀ t', t' ≠ t → mine t' l.new = false

section seen
variable {mine : T → R → Bool} {plain : C → Bool}

theorem apart_step (ho : Owned prog mine plain) (hp : Programmed prog db) (h : Apart mine db)
    (hm : Move prog db op v) : Apart mine v := by
  intro t y hy l hl
  cases hm with
  | begin hx =>
    rcases of_setTx hy with ⟨rfl, rfl⟩ | ⟨-, hy⟩
    · cases hl
    · exact h t y hy l hl
  | snapshot hx | pass hx | next hx =>
    rcases of_setTx hy with ⟨rfl, rfl⟩ | ⟨-, hy⟩
    · exact h t _ hx l hl
    · exact h t y hy l hl
  | @take t₀ x st rest r ks hx ht hs hf hr hlk hc =>
    rcases of_setTx hy with ⟨rfl, rfl⟩ | ⟨-, hy⟩
    · rcases mem_put.mp hl with rfl | ⟨hl, -⟩
      · refine ho.others t x.call st ?_ _ hc
        rw [hp t x hx, ht]
        exact List.mem_append_right _ List.mem_cons_self
      · exact h t x hx l hl
    · exact h t y hy l hl
  | commit | abort => exact h t y (of_release hy).2 l hl
  | insert => exact h t y hy l hl

/-- The statements that are over for the row with the key. -/
def Txn.over (x : Txn C key) (k : K) : List (Stmt key) :=
  match x.todo, x.scan with
  | st :: _, some ks => if k ∈ ks then x.ran else x.ran ++ [st]
  | _, _ => x.ran

theorem over_idle {x : Txn C key} (h : x.scan = none) (k : K) : x.over k = x.ran := by
  unfold Txn.over
  split
  · rename_i hs
    rw [h] at hs
    cases hs
  · rfl

theorem Programmed.over_subset (h : Programmed prog db) {t : T} {x : Txn C key}
    (hx : db.txs t = some x) (k : K) : x.over k ⊆ prog t x.call := by
  rw [h t x hx]
  unfold Txn.over
  split
  · rename_i st rest ks ht hs
    rw [ht]
    split
    · exact List.subset_append_left _ _
    · intro st' hst'
      rcases List.mem_append.mp hst' with hst' | hst'
      · exact List.mem_append_left _ hst'
      · rw [List.mem_singleton.mp hst']
        exact List.mem_append_right _ List.mem_cons_self
  · exact List.subset_append_left _ _

/-- Of every row the transaction sees what its statements made of it so far. -/
def Sees (db : DB T C key) (x : Txn C key) : Prop :=
  ∀ r ∈ db.rows, x.view r = applyAll (x.over (key r)) r

def Seen (plain : C → Bool) (db : DB T C key) : Prop :=
  ∀ t x, db.txs t = some x → plain x.call = true → Sees db x

/-- A row of another transaction, or of none, is not touched. -/
theorem Owned.untouched (ho : Owned prog mine plain) (hp : Programmed prog db) {t : T}
    {x : Txn C key} (hx : db.txs t = some x) (hc : plain x.call = true) {r : R}
    (hr : mine t r = false) (k : K) : applyAll (x.over k) r = r := by
  refine applyAll_none fun st hst => ?_
  by_contra hcond
  have := (ho.plain t x.call hc st (hp.over_subset hx k hst)).2.2 r (by simpa using hcond)
  rw [hr] at this
  cases this

/-- A row that is visited, or is no candidate, is done with. -/
theorem sees_visited {x : Txn C key} {st : Stmt key} {r : R} {ran : List (Stmt key)}
    (hv : x.view r = applyAll ran r) (hc : st.cond (x.view r) = false) :
    x.view r = applyAll (ran ++ [st]) r := by
  rw [applyAll_snoc, ← hv, Stmt.apply, hc]
  rfl

theorem Owned.sees_move (ho : Owned prog mine plain) (hok : Ok db) (hp : Programmed prog db)
    (h : Seen plain db) (hm : Move prog db op v) {t : T} {x y : Txn C key}
    (hx : db.txs t = some x) (hy : v.txs t = some y) (hc : plain y.call = true)
    (hop : op = .snapshot t ∨ op = .visit t ∨ op = .next t) : Sees v y := by
  have plain_of : ∀ {st : Stmt key} {rest}, plain x.call = true → x.todo = st :: rest →
      st.limit = none ∧ st.skipLocked = false := by
    intro st rest hcx ht
    have hmem : st ∈ prog t x.call := by
      rw [hp t x hx, ht]
      exact List.mem_append_right _ List.mem_cons_self
    exact ⟨(ho.plain t x.call hcx st hmem).1, (ho.plain t x.call hcx st hmem).2.1⟩
  cases hm with
  | begin | commit | abort | insert => rcases hop with hop | hop | hop <;> cases hop
  | @snapshot t' x' st rest hx' ht hs =>
    obtain rfl : t' = t := by rcases hop with hop | hop | hop <;> cases hop; rfl
    obtain rfl := Option.some.inj (hx.symm.trans hx')
    rcases of_setTx hy with ⟨-, rfl⟩ | ⟨hne, -⟩
    · intro r hr
      have hv := h t' x hx hc r hr
      simp only [Txn.over, ht, hs] at hv
      simp only [Txn.over, ht]
      split
      · exact hv
      · rename_i hout
        refine sees_visited hv ?_
        by_contra hcond
        rw [Bool.not_eq_false] at hcond
        exact hout (List.mem_map.mpr ⟨r, List.mem_filter.mpr ⟨hr, hcond⟩, rfl⟩)
    · exact absurd rfl hne
  | @pass t' x' st rest k ks hx' ht hs hpass =>
    obtain rfl : t' = t := by rcases hop with hop | hop | hop <;> cases hop; rfl
    obtain rfl := Option.some.inj (hx.symm.trans hx')
    rcases of_setTx hy with ⟨-, rfl⟩ | ⟨hne, -⟩
    · obtain ⟨hnotin, -⟩ := List.nodup_cons.mp (hok.scanKeys _ _ hx _ hs)
      intro r hr
      have hv := h t' x hx hc r hr
      simp only [Txn.over, ht, hs, List.mem_cons] at hv
      simp only [Txn.over, ht]
      by_cases hk : key r = k
      · rw [if_pos (.inl hk)] at hv
        rw [if_neg (hk ▸ hnotin)]
        refine sees_visited hv ((hpass r hr hk).resolve_right fun hskip => ?_)
        rw [(plain_of hc ht).2] at hskip
        exact absurd hskip.1 (by simp)
      · simp only [hk, false_or] at hv
        exact hv
    · exact absurd rfl hne
  | @take t' x' st rest r₀ ks hx' ht hs hf hr₀ hl hcond =>
    obtain rfl : t' = t := by rcases hop with hop | hop | hop <;> cases hop; rfl
    obtain rfl := Option.some.inj (hx.symm.trans hx')
    rcases of_setTx hy with ⟨-, rfl⟩ | ⟨hne, -⟩
    · obtain ⟨hnotin, -⟩ := List.nodup_cons.mp (hok.scanKeys _ _ hx _ hs)
      intro r hr
      have hv := h t' x hx hc r hr
      rw [view_put rfl (hok.lockKeys _ _ hx)]
      simp only [Txn.over, ht, hs, List.mem_cons] at hv
      simp only [Txn.over, ht]
      by_cases hk : key r = key r₀
      · obtain rfl := List.inj_on_of_nodup_map hok.keys hr hr₀ hk
        rw [if_pos (.inl rfl)] at hv
        rw [if_pos rfl, if_neg hnotin, applyAll_snoc, ← hv, Stmt.apply, if_pos hcond]
      · rw [if_neg hk]
        simpa [hk] using hv
    · exact absurd rfl hne
  | @next t' x' st rest ks hx' ht hs hf =>
    obtain rfl : t' = t := by rcases hop with hop | hop | hop <;> cases hop; rfl
    obtain rfl := Option.some.inj (hx.symm.trans hx')
    rcases of_setTx hy with ⟨-, rfl⟩ | ⟨hne, -⟩
    · have hks : ks = [] := by
        refine hf.resolve_right fun hfull => ?_
        simp [Stmt.full, (plain_of hc ht).1] at hfull
      intro r hr
      have hv := h t' x hx hc r hr
      simp only [Txn.over, ht, hs, hks, List.not_mem_nil, if_false] at hv
      rw [over_idle rfl]
      exact hv
    · exact absurd rfl hne

theorem seen_step (ho : Owned prog mine plain) (hok : Ok db) (hp : Programmed prog db)
    (ha : Apart mine db) (h : Seen plain db) (hm : Move prog db op v)
    (hnew : ∀ rs, op = .insert rs → ∀ r ∈ rs, ∀ t, mine t r = false) : Seen plain v := by
  intro t y hy hc
  have same : ∀ {t' : T} {x' : Txn C key}, t ≠ t' → (db.setTx t' x').txs t = some y →
      db.txs t = some y := by
    intro t' x' hne hy
    rcases of_setTx hy with ⟨he, -⟩ | ⟨-, hy⟩
    · exact absurd he hne
    · exact hy
  cases hm with
  | @begin t' call hx =>
    rcases of_setTx hy with ⟨rfl, rfl⟩ | ⟨-, hy⟩
    · intro r hr
      rw [over_idle rfl]
      exact view_free fun l hl => by cases hl
    · exact h t y hy hc
  | @snapshot t' x st rest hx ht hs =>
    by_cases he : t = t'
    · subst he
      exact ho.sees_move hok hp h (.snapshot hx ht hs) hx hy hc (.inl rfl)
    · exact h t y (same he hy) hc
  | @pass t' x st rest k ks hx ht hs hr =>
    by_cases he : t = t'
    · subst he
      exact ho.sees_move hok hp h (.pass hx ht hs hr) hx hy hc (.inr (.inl rfl))
    · exact h t y (same he hy) hc
  | @take t' x st rest r ks hx ht hs hf hr hl hcond =>
    by_cases he : t = t'
    · subst he
      exact ho.sees_move hok hp h (.take hx ht hs hf hr hl hcond) hx hy hc (.inr (.inl rfl))
    · exact h t y (same he hy) hc
  | @next t' x st rest ks hx ht hs hf =>
    by_cases he : t = t'
    · subst he
      exact ho.sees_move hok hp h (.next hx ht hs hf) hx hy hc (.inr (.inr rfl))
    · exact h t y (same he hy) hc
  | @commit t' x hx ht =>
    obtain ⟨hne, hy⟩ := of_release hy
    intro r' hr'
    obtain ⟨r, hr, rfl⟩ := List.mem_map.mp hr'
    rcases view_cases x r with ⟨l, hl, he⟩ | hv
    · -- the row was locked by the transaction that commits
      have hnew := view_lock (hok.lockKeys t' x hx) hl he.symm
      have hmine : mine t (x.view r) = false := by
        rw [hnew]
        exact ha t' x hx l hl t hne
      rw [ho.untouched hp hy hc hmine]
      refine view_free fun l' hl' hk => hne (hok.exclusive hy hx hl' hl ?_)
      rw [hk, hok.view_key hx r, he]
    · rw [hv]
      exact h t y hy hc r hr
  | abort => exact h t y (of_release hy).2 hc
  | @insert rs hn hf =>
    intro r hr
    rcases List.mem_append.mp hr with hr | hr
    · exact h t y hy hc r hr
    · rw [ho.untouched hp hy hc (hnew rs rfl r hr t)]
      refine view_free fun l hl hk => hf r hr ?_
      rw [← hk]
      exact List.mem_map_of_mem (hok.found t y hy l hl).1

/-- **A commit is atomic.** What a transaction of plain statements commits is
what its statements make of the table of that moment. -/
theorem commit_atomic (hp : Programmed prog db) (h : Seen plain db) {t : T} {x : Txn C key}
    (hx : db.txs t = some x) (hc : plain x.call = true) (ht : x.todo = []) :
    db.rows.map x.view = db.rows.map (applyAll (prog t x.call)) := by
  refine List.map_congr_left fun r hr => ?_
  rw [h t x hx hc r hr, hp t x hx, ht, List.append_nil]
  unfold Txn.over
  rw [ht]

end seen

end BatchSystem.Core.RowLocks
