import Mathlib.Data.List.Perm.Subperm
import BatchSystem.Queue.Transactions

/-!
# What a completion leaves alone

`_COMPLETE_SQL` selects rows by owner and external id and names no job. Right
after a claim each record finishes the claimed row of its id, and besides every
row of another job that the worker still holds under that id.

* `claimed_owned`: a claimed chunk is owned, and its ids are distinct.
* `completion_framed_iff`: the completion keeps to its chunk exactly when the
  worker holds no row of another job under an id of the chunk.
* `completion_leaks`: one worker id, two jobs and one id in both.
-/
namespace BatchSystem.Queue

open BatchSystem.Core Domain PromptItems

/-- The statements changed row `r` of `t`. -/
def Changed (t u : PromptItems) (r : ItemRow) : Prop := r ∈ t.rows ∧ r ∉ u.rows

/-- A completion of `results` keeps to job `job`, to one row per record and to
as many rows as records. -/
structure Framed (job : JobId) (results : List ResultRecord) (t : PromptItems)
    (u : PromptItems × Nat) : Prop where
  others : ∀ r ∈ t.rows, r.jobId ≠ job → r ∈ u.1.rows
  record : ∀ r, Changed t u.1 r → ∃ res ∈ results, res.externalId = r.externalId
  single : ∀ r r', Changed t u.1 r → Changed t u.1 r' → r.externalId = r'.externalId → r = r'
  count : u.2 ≤ results.length

/-! ## The chunk just claimed -/

section claimed
variable {s v : QState} {job : JobId} {w : WorkerId} {size : Nat} {secs : Int}
  {chunk : List ClaimedItem}

/-- Each item of the chunk has a row that the worker now owns. -/
theorem claimed_owned (h : txStep s (.claimChunk job w size secs chunk) = some v) {c : ClaimedItem}
    (hc : c ∈ chunk) : ∃ r ∈ v.items.rows, r.jobId = job ∧ r.externalId = c.externalId ∧
      ownedBy w r = true := by
  obtain ⟨r, hr, rfl⟩ := (claimChunk_mem h).mp hc
  obtain ⟨hm, hcl⟩ := mem_claimed hr
  refine ⟨_, rowAfter_mem h hm, ?_⟩
  simp only [rowAfter, if_pos hr]
  exact ⟨(claimable_iff.mp hcl).1, rfl, ownedBy_iff.mpr ⟨rfl, rfl⟩⟩

/-- Its external ids are distinct: they are those of rows of one job. -/
theorem claimed_nodup (h : txStep s (.claimChunk job w size secs chunk) = some v) :
    (chunk.map (·.externalId)).Nodup := by
  simp only [txStep, Option.ite_none_right_eq_some] at h
  have hp := (List.isPerm_iff.mp h.1).map ClaimedItem.externalId
  rw [hp.nodup_iff, claimChunk_chunk, List.map_map]
  have hs : (claimed s.items job size s.now).Sublist s.items.rows :=
    (List.take_sublist _ _).trans List.filter_sublist
  have hk := s.items.uqJobExternal.sublist (hs.map ItemRow.key)
  rw [List.nodup_map_iff_inj_on hk.of_map]
  intro r hr r' hr' he
  obtain ⟨hm, hcl⟩ := mem_claimed hr
  obtain ⟨hm', hcl'⟩ := mem_claimed hr'
  exact s.items.key_inj hm hm'
    ((claimable_iff.mp hcl).1.trans (claimable_iff.mp hcl').1.symm) he

end claimed

/-! ## The completion -/

section completion
variable {t : PromptItems} {w : WorkerId} {ref : String} {results : List ResultRecord}

/-- A row that a completion changes is owned, and a record has its id. -/
theorem changed_matched (h : NoRematch results) {r : ItemRow}
    (hr : Changed t (completeItems t w ref results).1 r) :
    ownedBy w r = true ∧ ∃ res ∈ results, res.externalId = r.externalId := by
  obtain ⟨hm, hn⟩ := hr
  rw [completeItems_rows h, List.mem_map] at hn
  have hne : completeRow w ref results r ≠ r := fun e => hn ⟨r, hm, e⟩
  unfold completeRow at hne
  split at hne
  · rename_i ho
    split at hne
    · rename_i res hres
      exact ⟨ho, res, mem_recordFor hres⟩
    · exact absurd rfl hne
  · exact absurd rfl hne

theorem recordFor_isSome {r : ItemRow} : (recordFor results r).isSome = true ↔
    r.externalId ∈ results.map (·.externalId) := by
  rw [recordFor, List.find?_isSome, List.mem_map]
  exact exists_congr fun res => and_congr_right fun _ => by rw [beq_iff_eq, eq_comm]

/-- The rows that a completion matches. -/
def matched (t : PromptItems) (w : WorkerId) (results : List ResultRecord) : List ItemRow :=
  t.rows.filter fun r => ownedBy w r && (recordFor results r).isSome

theorem mem_matched {r : ItemRow} : r ∈ matched t w results ↔
    r ∈ t.rows ∧ ownedBy w r = true ∧ r.externalId ∈ results.map (·.externalId) := by
  rw [matched, List.mem_filter, Bool.and_eq_true, recordFor_isSome]

theorem completeItems_matched (h : NoRematch results) :
    (completeItems t w ref results).2 = (matched t w results).length := by
  rw [completeItems_count h, List.countP_eq_length_filter, matched]

theorem matched_nodup : (matched t w results).Nodup :=
  (t.uqJobExternal.of_map).filter _

/-- When all of them are of one job, there is at most one for each record. -/
theorem matched_length_le {job : JobId} (h : ∀ r ∈ matched t w results, r.jobId = job) :
    (matched t w results).length ≤ results.length := by
  have hn : ((matched t w results).map ItemRow.externalId).Nodup := by
    rw [List.nodup_map_iff_inj_on matched_nodup]
    intro r hr r' hr' he
    exact t.key_inj (mem_matched.mp hr).1 (mem_matched.mp hr').1 ((h r hr).trans (h r' hr').symm) he
  have hs : (matched t w results).map ItemRow.externalId ⊆ results.map (·.externalId) := by
    intro x hx
    obtain ⟨r, hr, rfl⟩ := List.mem_map.mp hx
    exact (mem_matched.mp hr).2.2
  simpa using (hn.subperm hs).length_le

/-- A row of another job among them comes on top of one row for each record. -/
theorem lt_matched_length {job : JobId} (hn : (results.map (·.externalId)).Nodup)
    (hown : ∀ res ∈ results, ∃ r ∈ t.rows, r.jobId = job ∧ r.externalId = res.externalId ∧
      ownedBy w r = true) {r : ItemRow} (hr : r ∈ matched t w results) (hj : r.jobId ≠ job) :
    results.length < (matched t w results).length := by
  have hs : results.map (·.externalId) ⊆
      ((matched t w results).erase r).map ItemRow.externalId := by
    intro x hx
    obtain ⟨res, hres, rfl⟩ := List.mem_map.mp hx
    obtain ⟨r', hm, hj', he, ho⟩ := hown res hres
    refine List.mem_map.mpr ⟨r', ?_, he⟩
    rw [matched_nodup.mem_erase_iff]
    refine ⟨fun e => hj (e ▸ hj'), mem_matched.mpr ⟨hm, ho, ?_⟩⟩
    rw [he]
    exact List.mem_map_of_mem hres
  have hl := (hn.subperm hs).length_le
  rw [List.length_map, List.length_map, List.length_erase_of_mem hr] at hl
  have hpos := List.length_pos_of_mem hr
  omega

end completion

/-! ## Headline -/

/-- **Completion keeps to its chunk**, exactly when the worker holds no row of
another job under an external id of the chunk. -/
theorem completion_framed_iff {s v : QState} {job : JobId} {w : WorkerId} {size : Nat} {secs : Int}
    {chunk : List ClaimedItem} (hst : queue.step s (.claimChunk job w size secs chunk) v)
    {results : List ResultRecord}
    (hp : (results.map (·.externalId)).Perm (chunk.map (·.externalId))) (ref : String) :
    Framed job results v.items (completeItems v.items w ref results) ↔
      ∀ r ∈ v.items.rows, r.jobId ≠ job → ownedBy w r = true →
        ∀ c ∈ chunk, c.externalId ≠ r.externalId := by
  have hn : (results.map (·.externalId)).Nodup := hp.nodup_iff.mpr (claimed_nodup hst)
  have hre := noRematch_of_nodup hn
  constructor
  · intro hf r hr hj ho c hc he
    have hm : r ∈ matched v.items w results := by
      refine mem_matched.mpr ⟨hr, ho, hp.mem_iff.mpr ?_⟩
      exact List.mem_map.mpr ⟨c, hc, he⟩
    have hown : ∀ res ∈ results, ∃ r ∈ v.items.rows, r.jobId = job ∧
        r.externalId = res.externalId ∧ ownedBy w r = true := by
      intro res hres
      have hmem : res.externalId ∈ chunk.map (·.externalId) :=
        hp.mem_iff.mp (List.mem_map.mpr ⟨res, hres, rfl⟩)
      obtain ⟨c', hc', he'⟩ := List.mem_map.mp hmem
      rw [← he']
      exact claimed_owned hst hc'
    have hlt := lt_matched_length hn hown hm hj
    have hcount := hf.count
    rw [completeItems_matched hre] at hcount
    omega
  · intro h
    have hjob : ∀ r ∈ v.items.rows, ownedBy w r = true →
        r.externalId ∈ results.map (·.externalId) → r.jobId = job := by
      intro r hr ho hx
      by_contra hj
      obtain ⟨c, hc, he⟩ := List.mem_map.mp (hp.mem_iff.mp hx)
      exact h r hr hj ho c hc he
    have hchanged : ∀ r, Changed v.items (completeItems v.items w ref results).1 r →
        r.jobId = job := by
      intro r hr
      obtain ⟨ho, res, hres, he⟩ := changed_matched hre hr
      exact hjob r hr.1 ho (List.mem_map.mpr ⟨res, hres, he⟩)
    refine ⟨fun r hr hj => ?_, fun r hr => (changed_matched hre hr).2, fun r r' hr hr' he => ?_, ?_⟩
    · by_contra hc
      exact hj (hchanged r ⟨hr, hc⟩)
    · exact v.items.key_inj hr.1 hr'.1 ((hchanged r hr).trans (hchanged r' hr').symm) he
    · have hall : ∀ r ∈ matched v.items w results, r.jobId = job := by
        intro r hr
        obtain ⟨hm, ho, hx⟩ := mem_matched.mp hr
        exact hjob r hm ho hx
      rw [completeItems_matched hre]
      exact matched_length_le hall

/-! ## Non-vacuity -/

/-- The row `a` of two jobs; `w` claims that of `k` and then that of `j`. -/
def sharedId : List Tx :=
  [.bulkInsert "j" [⟨"a", "hi"⟩] [] 1, .bulkInsert "k" [⟨"a", "ho"⟩] [] 1,
   .claimChunk "k" "w" 5 60 [⟨2, "a", "ho", 1⟩]]

/-- A record for it. -/
def recordA : ResultRecord := { externalId := "a", status := .succeeded, attempts := 1 }

/-- A worker with another id holds the row of `k`: the completion is framed. -/
theorem completion_framed_other : ∃ s v,
    queue.step s (.claimChunk "j" "w'" 5 60 [⟨1, "a", "hi", 1⟩]) v ∧
    Framed "j" [recordA] v.items (completeItems v.items "w'" "out" [recordA]) := by
  obtain ⟨⟨tr, s⟩, he, hp⟩ : ∃ r, LTS.exec txStep ⟨0, .empty⟩ sharedId = some r ∧
      (((txStep r.2 (.claimChunk "j" "w'" 5 60 [⟨1, "a", "hi", 1⟩])).map fun v =>
        v.items.rows.all fun r => r.jobId == "j" || !ownedBy "w'" r) = some true) :=
    ⟨_, rfl, by decide⟩
  obtain ⟨v, hv, hall⟩ := Option.map_eq_some_iff.mp hp
  refine ⟨s, v, hv, (completion_framed_iff hv .rfl "out").mpr fun r hr hj ho => ?_⟩
  have hrow := List.all_eq_true.mp hall r hr
  simp [hj, ho] at hrow

theorem completion_leaks : ¬ ∀ (s v : QState) (job : JobId) (w : WorkerId) (size : Nat) (secs : Int)
    (chunk : List ClaimedItem) (results : List ResultRecord) (ref : String), queue.Reachable s →
    queue.step s (.claimChunk job w size secs chunk) v → chunk ≠ [] →
    (results.map (·.externalId)).Perm (chunk.map (·.externalId)) →
    Framed job results v.items (completeItems v.items w ref results) := by
  intro h
  obtain ⟨⟨tr, s⟩, he, hp⟩ : ∃ r, LTS.exec txStep ⟨0, .empty⟩ sharedId = some r ∧
      (((txStep r.2 (.claimChunk "j" "w" 5 60 [⟨1, "a", "hi", 1⟩])).map fun v =>
        (completeItems v.items "w" "out" [recordA]).2) = some 2) :=
    ⟨_, rfl, by decide⟩
  obtain ⟨v, hv, hcount⟩ := Option.map_eq_some_iff.mp hp
  have hr : queue.Reachable s := ⟨tr, ⟨0, .empty⟩, rfl, LTS.path_of_exec he⟩
  have hf := (h s v "j" "w" 5 60 _ [recordA] "out" hr hv (by simp) .rfl).count
  rw [hcount] at hf
  exact absurd hf (by decide)

end BatchSystem.Queue
