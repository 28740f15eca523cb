import BatchSystem.Engine.Fencing

/-!
# What a failing heartbeat does to finished work

The heartbeat is joined after every chunk, and only its cancellation is
suppressed: an exception that ended it comes out of `await heartbeat`, after
the rows were processed and before `write_chunk`.

* `renewals`: how the `renew_lease` calls of a worker's heartbeat ended, since
  its last claim.
* `PassesOn`: the results go to `write_chunk`, then to `complete_items`, and the
  worker comes back to its claim.
* `results_passed_iff`: they do if and only if no renewal raised.
-/
namespace BatchSystem.Engine

open BatchSystem.Core Domain Queue Storage PState

/-! ## The heartbeat -/

/-- `false`: the call raised. -/
def renewalsAfter (w : WorkerId) (rs : List Bool) : Act → List Bool
  | .claim x _ _ => if x = w then [] else rs
  | .renew x => if x = w then rs ++ [true] else rs
  | .renewFails x => if x = w then rs ++ [false] else rs
  | _ => rs

def renewals (tr : List (Trans PState Act)) (w : WorkerId) : List Bool :=
  tr.foldl (fun rs t => renewalsAfter w rs t.lbl) []

theorem renewals_snoc (tr : List (Trans PState Act)) (t : Trans PState Act) (w : WorkerId) :
    renewals (tr ++ [t]) w = renewalsAfter w (renewals tr w) t.lbl := by
  simp [renewals]

theorem renewalsAfter_other {l : Act} {w : WorkerId} (h : l.mover ≠ some w) (rs : List Bool) :
    renewalsAfter w rs l = rs := by
  cases l with
  | claim x | renew x | renewFails x => exact if_neg fun he => h (congrArg some he)
  | _ => rfl

/-- The heartbeat of a worker has failed if one of its renewals did. -/
def HeartbeatInv (tr : List (Trans PState Act)) (s : PState) : Prop :=
  ∀ w k cid chunk hb, s.workers w = some k → k.phase = .processing cid chunk hb →
    (hb = .failed ↔ false ∈ renewals tr w)

theorem heartbeatInv_step {tr : List (Trans PState Act)} {s v : PState} {l : Act}
    (h : HeartbeatInv tr s) (hm : Move s l v) : HeartbeatInv (tr ++ [⟨s, l, v⟩]) v := by
  intro x k' cid chunk hb hx hp'
  rw [renewals_snoc]
  show _ ↔ false ∈ renewalsAfter x (renewals tr x) l
  cases turn_of_move hm hx with
  | same hk hl =>
    rw [renewalsAfter_other hl]
    exact h x _ cid chunk hb hk hp'
  | start | processed | written | complete => cases hp'
  | leave hk hl hp => cases hp.symm.trans hp'
  | claim | renewFails => cases hp'; simp [renewalsAfter]
  | renew hk hl hp =>
    cases hp'
    have hold := h _ _ _ _ _ hk hp
    rw [renewalsAfter, if_pos rfl]
    simpa using hold
  | dropped hk | writePart hk | raise hk | crash hk => exact h _ _ cid chunk hb hk hp'

theorem heartbeatInv_run {tr : List (Trans PState Act)} {s : PState} (h : pool.Run tr s) :
    HeartbeatInv tr s := by
  refine h.induct ?_ fun tr s l v _ ih hst => heartbeatInv_step ih (move_of_step hst)
  rintro _ ⟨now, rfl⟩ w k cid chunk hb hk
  cases hk

/-! ## Where the results go -/

/-- A call that hands results over, with its arguments. -/
inductive Handover where
  | write (chunkId : ChunkId) (results : List ResultRecord)
  | complete (results : List ResultRecord) (ref : String)
  deriving DecidableEq

/-- The call of `w` that the transition ends. -/
def handover (w : WorkerId) (t : Trans PState Act) : Option Handover :=
  match t.lbl with
  | .written x => if x = w then (t.pre.workers w).bind fun k => match k.phase with
      | .writing chunkId _ results => some (.write chunkId results)
      | _ => none
    else none
  | .complete x _ => if x = w then (t.pre.workers w).bind fun k => match k.phase with
      | .completing _ _ results ref => some (.complete results ref)
      | _ => none
    else none
  | _ => none

theorem handover_other {w : WorkerId} {t : Trans PState Act} (h : t.lbl.mover ≠ some w) :
    handover w t = none := by
  obtain ⟨s, l, v⟩ := t
  cases l with
  | written x | complete x => exact if_neg fun he => h (congrArg some he)
  | _ => rfl

/-- The next claim of `w`, or an end of `w` by an exception or a crash. -/
def interrupts (w : WorkerId) : Act → Bool
  | .claim x _ _ | .raise x => x = w
  | .crash ws => ws.contains w
  | _ => false

/-- The calls so far, and the await at which the worker stands after them. -/
inductive HandedOver (cid : ChunkId) (results : List ResultRecord) : List Handover → Phase → Prop
  | writing {chunk : List ClaimedItem} : HandedOver cid results [] (.writing cid chunk results)
  | completing {chunk : List ClaimedItem} {ref : String} :
      HandedOver cid results [.write cid results] (.completing cid chunk results ref)
  | claiming {ref : String} :
      HandedOver cid results [.write cid results, .complete results ref] .claiming

/-- The call in which `w` stands may return. -/
def MayReturn (u : PState) (w : WorkerId) : Phase → Prop
  | .writing .. => ∃ u', pool.step u (.written w) u'
  | .completing .. => ∃ n u', pool.step u (.complete w n) u'
  | .claiming | .processing .. => True

/-- From `v` on, whatever else happens, `w` hands over `results` and nothing
else until its next claim. -/
def PassesOn (v : PState) (w : WorkerId) (cid : ChunkId) (results : List ResultRecord) : Prop :=
  ∀ tr u, pool.Path v tr u → (∀ t ∈ tr, interrupts w t.lbl = false) →
    ∃ k, u.workers w = some k ∧ k.life = .running ∧ MayReturn u w k.phase ∧
      HandedOver cid results (tr.filterMap (handover w)) k.phase

theorem mayReturn {u : PState} {w : WorkerId} {k : Worker} (hk : u.workers w = some k)
    (hl : k.life = .running) : MayReturn u w k.phase := by
  have hrun : u.running w = some k := running_iff.mpr ⟨hk, hl⟩
  cases hp : k.phase with
  | claiming | processing => trivial
  | writing cid chunk results =>
    show ∃ u', step u (.written w) = some u'
    simp only [step, hrun, Option.bind_some, hp]
    exact ⟨_, rfl⟩
  | completing cid chunk results ref =>
    show ∃ n u', step u (.complete w n) = some u'
    simp only [step, hrun, Option.bind_some, hp]
    exact ⟨_, _, if_pos rfl⟩

section step
variable {s v : PState} {l : Act} {w : WorkerId} {cid : ChunkId} {results : List ResultRecord}

/-- Only its own calls move a worker that writes or completes. -/
theorem handedOver_step (hm : Move s l v) (hi : interrupts w l = false) {k : Worker}
    {calls : List Handover} (hk : s.workers w = some k) (hl : k.life = .running)
    (h : HandedOver cid results calls k.phase) :
    ∃ k', v.workers w = some k' ∧ k'.life = .running ∧
      HandedOver cid results (calls ++ (handover w ⟨s, l, v⟩).toList) k'.phase := by
  obtain ⟨k', hk'⟩ := worker_persists hm hk
  refine ⟨k', hk', ?_⟩
  cases turn_of_move hm hk' with
  | same hk₀ hne =>
    obtain rfl := Option.some.inj (hk₀.symm.trans hk)
    rw [handover_other hne, Option.toList_none, List.append_nil]
    exact ⟨hl, h⟩
  | start hn => rw [hn] at hk; cases hk
  | leave | claim | raise => simp [interrupts] at hi
  | crash _ _ hmem => simp [interrupts, hmem] at hi
  | renew hk₀ _ hp | renewFails hk₀ _ hp | processed hk₀ _ hp | dropped hk₀ _ hp =>
    obtain rfl := Option.some.inj (hk₀.symm.trans hk)
    rw [hp] at h
    cases h
  | writePart hk₀ =>
    obtain rfl := Option.some.inj (hk₀.symm.trans hk)
    exact ⟨hl, by simpa [handover] using h⟩
  | written hk₀ _ hp =>
    obtain rfl := Option.some.inj (hk₀.symm.trans hk)
    rw [hp] at h
    cases h
    exact ⟨hl, by simpa [handover, hk, hp] using HandedOver.completing⟩
  | complete hk₀ _ hp =>
    obtain rfl := Option.some.inj (hk₀.symm.trans hk)
    rw [hp] at h
    cases h
    exact ⟨hl, by simpa [handover, hk, hp] using HandedOver.claiming⟩

theorem passesOn_of_writing {chunk : List ClaimedItem} {k : Worker} (hk : v.workers w = some k)
    (hl : k.life = .running) (hp : k.phase = .writing cid chunk results) :
    PassesOn v w cid results := by
  intro tr u hpath
  induction hpath with
  | nil =>
    intro _
    refine ⟨k, hk, hl, mayReturn hk hl, ?_⟩
    rw [hp]
    exact .writing
  | snoc hpath hst ih =>
    intro hi
    obtain ⟨k₁, hk₁, hl₁, -, h⟩ := ih fun t ht => hi t (List.mem_append_left _ ht)
    obtain ⟨k₂, hk₂, hl₂, h₂⟩ := handedOver_step (move_of_step hst)
      (hi _ (List.mem_append_right _ List.mem_cons_self)) hk₁ hl₁ h
    refine ⟨k₂, hk₂, hl₂, mayReturn hk₂ hl₂, ?_⟩
    rw [List.filterMap_append]
    exact h₂

/-- **Finished work is passed on if and only if no renewal of the lease raised**
while the chunk was processed. -/
theorem results_passed_iff {tr : List (Trans PState Act)} (hr : pool.Run tr s)
    {client : Nat → Nat → Outcome} {latencyMs : Nat → Int}
    (hst : pool.step s (.processed w client latencyMs) v) :
    ∃ k cid chunk hb, s.workers w = some k ∧ k.phase = .processing cid chunk hb ∧
      (PassesOn v w cid (processChunk k.settings chunk client latencyMs) ↔
        false ∉ renewals tr w) := by
  have hinv := heartbeatInv_run hr
  cases move_of_step hst with
  | processed hk hl hp =>
    refine ⟨_, _, _, _, hk, hp, ?_⟩
    have hgood := (hinv w _ _ _ _ hk hp).not.mp (by simp)
    exact iff_of_true (passesOn_of_writing (setWorker_same _ _ _) hl rfl) hgood
  | dropped hk hl hp =>
    refine ⟨_, _, _, _, hk, hp, ?_⟩
    have hbad := (hinv w _ _ _ _ hk hp).mp rfl
    refine iff_of_false (fun h => ?_) (not_not.mpr hbad)
    -- the worker is gone
    obtain ⟨k', hk', hl', -⟩ := h [] _ .nil (by simp)
    rw [PState.setLife, setWorker_same] at hk'
    cases hk'
    cases hl'

end step

/-! ## Non-vacuity -/

/-- Thirty seconds into its chunk the worker renews its lease, or fails to. -/
def renewalRun (renewal : Act) : List Act :=
  [.bulkInsert "j" [⟨"a", "hi"⟩] [], .start ["w1"] "j" {}, .claim "w1" chunk1 [⟨1, "a", "hi", 1⟩],
    .tick 30000000, renewal]

/-- One failed renewal: the results go nowhere. -/
theorem results_dropped : ¬ ∀ s v w client latencyMs, pool.Reachable s →
    pool.step s (.processed w client latencyMs) v →
      ∃ k cid chunk hb, s.workers w = some k ∧ k.phase = .processing cid chunk hb ∧
        PassesOn v w cid (processChunk k.settings chunk client latencyMs) := by
  intro h
  obtain ⟨⟨tr, s⟩, he, v, hv, hlife⟩ : ∃ p,
      LTS.exec step (.init 0) (renewalRun (.renewFails "w1")) = some p ∧ ∃ v,
        step p.2 (.processed "w1" (answer "one") (fun _ => 5)) = some v ∧
          (v.workers "w1").all (fun k => k.life ≠ .running) = true :=
    ⟨_, rfl, _, rfl, by decide⟩
  have hr : pool.Run tr s := ⟨_, ⟨0, rfl⟩, LTS.path_of_exec he⟩
  obtain ⟨_, cid, _, _, _, _, hpass⟩ := h s v "w1" _ _ hr.reachable hv
  obtain ⟨k, hk, hl, -⟩ := hpass [] v .nil (by simp)
  simp [hk, hl] at hlife

theorem results_passed_renewed : ∃ tr s v k cid chunk, pool.Run tr s ∧ renewals tr "w1" = [true] ∧
    pool.step s (.processed "w1" (answer "one") (fun _ => 5)) v ∧
      PassesOn v "w1" cid (processChunk k chunk (answer "one") (fun _ => 5)) := by
  obtain ⟨⟨tr, s⟩, he, hren, v, hv⟩ : ∃ p,
      LTS.exec step (.init 0) (renewalRun (.renew "w1")) = some p ∧ renewals p.1 "w1" = [true] ∧
        ∃ v, step p.2 (.processed "w1" (answer "one") (fun _ => 5)) = some v :=
    ⟨_, rfl, by decide, _, rfl⟩
  have hr : pool.Run tr s := ⟨_, ⟨0, rfl⟩, LTS.path_of_exec he⟩
  obtain ⟨k, cid, chunk, _, _, _, hiff⟩ := results_passed_iff hr hv
  exact ⟨tr, s, v, k.settings, cid, chunk, hr, hren, hv, hiff.mpr (by simp [hren])⟩

end BatchSystem.Engine
