import BatchSystem.Queue.Transactions

/-!
# The order in which rows are handed out

`claim_chunk` selects `ORDER BY id`. What follows for whole runs of the queue in
which one transaction acts at a time, with any callers in any order, expired leases
and repeated deliveries. Claims that overlap skip each other's rows, so with them a
later row may go out first.

* `Counted`: `attempts` of an unfinished row is the number of its deliveries so
  far, so the items of a claim say which delivery they are (`delivery_count`).
* `Cut`: of the prompts of a job, those that were ever handed out come first.
* `handed_out_in_order`: every prompt is handed out for the first time once, and
  each claim takes up where the one before it left off.
-/
namespace BatchSystem.Queue

open BatchSystem.Core Domain PromptItems

/-! ## What a claim returns -/

/-- The items that a transaction hands out. -/
def Tx.chunk : Tx → List ClaimedItem
  | .claimChunk _ _ _ _ chunk => chunk
  | .tick _ | .bulkInsert .. | .completeItems .. | .renewLease .. => []

/-- The rows that a transaction claims. -/
def picked (s : QState) : Tx → List ItemRow
  | .claimChunk job _ size _ _ => claimed s.items job size s.now
  | .tick _ | .bulkInsert .. | .completeItems .. | .renewLease .. => []

/-- How often row `id` was handed out. -/
def deliveries (tr : List (Trans QState Tx)) (id : Nat) : Nat :=
  (tr.flatMap fun t => t.lbl.chunk).countP fun c => c.id = id

/-- The rows of the job that a transaction hands out for the first time, as the
items say. -/
def firstOf (job : JobId) : Tx → List Nat
  | .claimChunk j _ _ _ chunk =>
    if j = job then (chunk.filter fun c => c.attempts = 1).map (·.id) else []
  | .tick _ | .bulkInsert .. | .completeItems .. | .renewLease .. => []

def firsts (job : JobId) (tr : List (Trans QState Tx)) : List (List Nat) :=
  tr.map fun t => firstOf job t.lbl

theorem deliveries_snoc (tr : List (Trans QState Tx)) (t : Trans QState Tx) (id : Nat) :
    deliveries (tr ++ [t]) id = deliveries tr id + t.lbl.chunk.countP fun c => c.id = id := by
  simp only [deliveries, List.flatMap_append, List.flatMap_singleton, List.countP_append]

section steps
variable {s v : QState} {l : Tx}

theorem picked_mem {r : ItemRow} (h : r ∈ picked s l) :
    r ∈ s.items.rows ∧ r.status.terminal = false := by
  cases l with
  | claimChunk job w size secs chunk =>
    exact ⟨(mem_claimed h).1, not_terminal_of_claimable (mem_claimed h).2⟩
  | _ => cases h

theorem picked_nodup (s : QState) (l : Tx) : (picked s l).Nodup := by
  cases l with
  | claimChunk job w size secs chunk =>
    have hn : s.items.rows.Nodup := s.items.idsSorted.imp fun h he => by rw [he] at h; omega
    exact ((List.take_sublist _ _).trans List.filter_sublist).nodup hn
  | _ => exact List.nodup_nil

theorem chunk_perm (h : txStep s l = some v) : l.chunk.Perm ((picked s l).map claimedItem) := by
  cases l with
  | claimChunk job w size secs chunk =>
    simp only [txStep, Option.ite_none_right_eq_some] at h
    exact List.isPerm_iff.mp h.1
  | _ => exact .nil

/-- A row is in the chunk once if it was claimed. -/
theorem chunk_count (h : txStep s l = some v) {r : ItemRow} (hr : r ∈ s.items.rows) :
    (l.chunk.countP fun c => c.id = r.id) = if r ∈ picked s l then 1 else 0 := by
  rw [(chunk_perm h).countP_eq, List.countP_map, ← (picked_nodup s l).count, List.count]
  refine List.countP_congr fun x hx => ?_
  rw [beq_iff_eq]
  constructor
  · intro he
    exact s.items.id_inj (picked_mem hx).1 hr (of_decide_eq_true he)
  · intro he
    exact decide_eq_true (congrArg ItemRow.id he)

theorem rowAfter_picked {r : ItemRow} (h : r ∈ picked s l) :
    (rowAfter s l r).status = .claimed ∧ (rowAfter s l r).attempts = r.attempts + 1 := by
  cases l with
  | claimChunk job w size secs chunk =>
    have he : rowAfter s (.claimChunk job w size secs chunk) r =
      claimRow w (s.now + makeInterval secs) r := if_pos h
    rw [he]
    exact ⟨rfl, rfl⟩
  | _ => cases h

theorem rowAfter_waiting {r : ItemRow} (hp : r.status = .pending) (hn : r ∉ picked s l) :
    rowAfter s l r = r := by
  have ho : ∀ w, ownedBy w r = false := fun w => by simp [ownedBy, hp]
  cases l with
  | tick | bulkInsert => rfl
  | claimChunk => exact if_neg hn
  | completeItems w results ref => exact completeRow_of_not_owned (ho w) ref results
  | renewLease w => exact if_neg (by simp [ho w])

/-- An unfinished row that a transaction does not claim keeps its count. -/
theorem rowAfter_attempts {r : ItemRow} (hst : txStep s l = some v) (hn : r ∉ picked s l)
    (ht : (rowAfter s l r).status.terminal = false) :
    (rowAfter s l r).status = r.status ∧ (rowAfter s l r).attempts = r.attempts := by
  cases l with
  | tick | bulkInsert => exact ⟨rfl, rfl⟩
  | claimChunk job w size secs chunk =>
    rw [show rowAfter s (.claimChunk job w size secs chunk) r = r from if_neg hn]
    exact ⟨rfl, rfl⟩
  | completeItems w results ref =>
    simp only [txStep, Option.ite_none_right_eq_some] at hst
    simp only [rowAfter, completeRow] at ht ⊢
    split
    · rename_i ho
      split
      · rename_i res hres
        rw [if_pos ho, hres] at ht
        rw [show (finishRow res ref r).status.terminal = true from
          hst.1.1 res (mem_recordFor hres).1] at ht
        cases ht
      · exact ⟨rfl, rfl⟩
    · exact ⟨rfl, rfl⟩
  | renewLease w secs =>
    simp only [rowAfter]
    split <;> exact ⟨rfl, rfl⟩

theorem rowAfter_started (hst : txStep s l = some v) {r : ItemRow} (h : r.status ≠ .pending) :
    (rowAfter s l r).status ≠ .pending := by
  intro hp
  by_cases hm : r ∈ picked s l
  · rw [(rowAfter_picked hm).1] at hp
    cases hp
  · exact h ((rowAfter_attempts hst hm (by rw [hp]; rfl)).1.symm.trans hp)

theorem rowsAdded_prompt {r : ItemRow} (h : r ∈ rowsAdded s l) :
    (r.status = .pending ∧ r.prompt.isSome = true) ∨ (r.status = .failed ∧ r.prompt = none) := by
  cases l with
  | bulkInsert job items failed count =>
    obtain ⟨c, hc, he⟩ := fresh_of_mem _ h
    simp only [insertRows, List.mem_append, List.mem_map] at hc
    rw [he]
    rcases hc with ⟨it, -, rfl⟩ | ⟨fr, -, rfl⟩
    · exact .inl ⟨rfl, rfl⟩
    · exact .inr ⟨rfl, rfl⟩
  | _ => cases h

theorem rowsAdded_fresh (hst : txStep s l = some v) {r r' : ItemRow} (hr : r ∈ s.items.rows)
    (hr' : r' ∈ rowsAdded s l) : r.id < r'.id := by
  have hs := v.items.idsSorted
  rw [txStep_rows hst, List.pairwise_append] at hs
  have := hs.2.2 _ (List.mem_map_of_mem hr) r' hr'
  rwa [(rowAfter_sameKey s l r).1] at this

end steps

/-! ## How often -/

/-- What the rows and the history know of each other. -/
structure Counted (tr : List (Trans QState Tx)) (s : QState) : Prop where
  known : ∀ id, 0 < deliveries tr id → ∃ r ∈ s.items.rows, r.id = id
  attempts : ∀ r ∈ s.items.rows, r.status.terminal = false → r.attempts = deliveries tr r.id
  waiting : ∀ r ∈ s.items.rows, r.status = .pending → deliveries tr r.id = 0
  claimed : ∀ r ∈ s.items.rows, r.status = .claimed → 0 < deliveries tr r.id
  prompt : ∀ r ∈ s.items.rows, r.status.terminal = false → r.prompt.isSome = true

section run
variable {tr : List (Trans QState Tx)} {s v : QState} {l : Tx} {job : JobId}

theorem Counted.fresh (h : Counted tr s) (hst : txStep s l = some v) {r : ItemRow}
    (hr : r ∈ rowsAdded s l) : deliveries (tr ++ [⟨s, l, v⟩]) r.id = 0 := by
  have hold : deliveries tr r.id = 0 := by
    by_contra hne
    obtain ⟨r₀, hr₀, he⟩ := h.known r.id (by omega)
    have := rowsAdded_fresh hst hr₀ hr
    omega
  rw [deliveries_snoc, hold, (chunk_perm hst).countP_eq, List.countP_map, Nat.zero_add]
  refine List.countP_eq_zero.mpr fun x hx he => ?_
  have := rowsAdded_fresh hst (picked_mem hx).1 hr
  have he : x.id = r.id := of_decide_eq_true he
  omega

theorem counted_step (h : Counted tr s) (hst : txStep s l = some v) :
    Counted (tr ++ [⟨s, l, v⟩]) v := by
  have hcount : ∀ r ∈ s.items.rows, deliveries (tr ++ [⟨s, l, v⟩]) (rowAfter s l r).id =
      deliveries tr r.id + if r ∈ picked s l then 1 else 0 := by
    intro r hr
    rw [deliveries_snoc, (rowAfter_sameKey s l r).1, chunk_count hst hr]
  refine ⟨fun id hpos => ?_, fun r hr ht => ?_, fun r hr hp => ?_, fun r hr hc => ?_,
    fun r hr ht => ?_⟩
  · rw [deliveries_snoc, (chunk_perm hst).countP_eq, List.countP_map] at hpos
    obtain ⟨r, hr, rfl⟩ : ∃ r ∈ s.items.rows, r.id = id := by
      by_cases hz : 0 < deliveries tr id
      · exact h.known id hz
      · have hp : 0 < (picked s l).countP ((fun c => decide (c.id = id)) ∘ claimedItem) := by omega
        obtain ⟨x, hx, he⟩ := List.countP_pos_iff.mp hp
        exact ⟨x, (picked_mem hx).1, of_decide_eq_true he⟩
    exact ⟨rowAfter s l r, rowAfter_mem hst hr, (rowAfter_sameKey s l r).1⟩
  · rcases (mem_after hst).mp hr with ⟨r₀, hr₀, rfl⟩ | hnew
    · rw [hcount r₀ hr₀]
      split
      · rename_i hm
        rw [(rowAfter_picked hm).2, h.attempts r₀ hr₀ (picked_mem hm).2]
        omega
      · rename_i hm
        obtain ⟨hs, ha⟩ := rowAfter_attempts hst hm ht
        rw [hs] at ht
        rw [ha, h.attempts r₀ hr₀ ht]
        omega
    · rw [h.fresh hst hnew, (rowsAdded_unclaimed hnew).attempts]
      rfl
  · rcases (mem_after hst).mp hr with ⟨r₀, hr₀, rfl⟩ | hnew
    · have hp₀ : r₀.status = .pending := by
        by_contra hne
        exact rowAfter_started hst hne hp
      have hm : r₀ ∉ picked s l := fun hm => by rw [(rowAfter_picked hm).1] at hp; cases hp
      rw [hcount r₀ hr₀, if_neg hm, h.waiting r₀ hr₀ hp₀]
    · exact h.fresh hst hnew
  · rcases (mem_after hst).mp hr with ⟨r₀, hr₀, rfl⟩ | hnew
    · rw [hcount r₀ hr₀]
      split
      · omega
      · rename_i hm
        have hs := (rowAfter_attempts hst hm (by rw [hc]; rfl)).1
        have := h.claimed r₀ hr₀ (hs.symm.trans hc)
        omega
    · rcases (rowsAdded_prompt hnew) with ⟨hs, -⟩ | ⟨hs, -⟩ <;> rw [hs] at hc <;> cases hc
  · rcases (mem_after hst).mp hr with ⟨r₀, hr₀, rfl⟩ | hnew
    · rw [(rowAfter_sameKey s l r₀).2.2.2]
      refine h.prompt r₀ hr₀ ?_
      by_contra hne
      have hterm := eq_true_of_ne_false hne
      rw [rowAfter_terminal s l hterm, hterm] at ht
      cases ht
    · rcases (rowsAdded_prompt hnew) with ⟨-, hp⟩ | ⟨hs, -⟩
      · exact hp
      · rw [hs] at ht
        cases ht

theorem counted_run (h : queue.Run tr s) : Counted tr s := by
  refine h.induct (P := fun tr s => Counted tr s) ?_ fun tr s l v _ ih hst => counted_step ih hst
  intro s hs
  have hrows : s.items = .empty := hs
  constructor <;> simp [hrows, PromptItems.empty, deliveries]

theorem Counted.first_iff (h : Counted tr s) {r : ItemRow} (hr : r ∈ s.items.rows)
    (ht : r.status.terminal = false) :
    (claimedItem r).attempts = 1 ↔ r.status = .pending := by
  have ha : (claimedItem r).attempts = deliveries tr r.id + 1 := by
    rw [claimedItem, h.attempts r hr ht]
  rw [ha]
  constructor
  · intro he
    cases hs : r.status with
    | pending => rfl
    | claimed =>
      have := h.claimed r hr hs
      omega
    | succeeded | failed =>
      rw [hs] at ht
      cases ht
  · intro hp
    rw [h.waiting r hr hp]
    rfl

/-! ## In what order -/

/-- The rows of the job that came with a prompt. -/
def prompts (t : PromptItems) (job : JobId) : List ItemRow :=
  t.rows.filter fun r => r.jobId = job ∧ r.prompt.isSome = true

/-- The prompts of the job, split where the next claim goes on. -/
structure Cut (tr : List (Trans QState Tx)) (s : QState) (job : JobId) (old new : List ItemRow) :
    Prop where
  split : prompts s.items job = old ++ new
  started : ∀ r ∈ old, r.status ≠ .pending
  waiting : ∀ r ∈ new, r.status = .pending
  firsts : (firsts job tr).flatten.Perm (old.map (·.id))
  blocks : (Queue.firsts job tr).Pairwise fun b c => ∀ i ∈ b, ∀ j ∈ c, i < j

theorem prompts_after (hst : txStep s l = some v) : prompts v.items job =
    (prompts s.items job).map (rowAfter s l) ++
      (rowsAdded s l).filter fun r => r.jobId = job ∧ r.prompt.isSome = true := by
  rw [prompts, txStep_rows hst, List.filter_append, prompts, List.filter_map]
  congr 2
  refine List.filter_congr fun r _ => ?_
  obtain ⟨-, hj, -, hp⟩ := rowAfter_sameKey s l r
  simp only [Function.comp_apply, hj, hp]

theorem Cut.mem_new {old new : List ItemRow} (h : Cut tr s job old new) {r : ItemRow}
    (hr : r ∈ new) : r ∈ s.items.rows ∧ r.jobId = job := by
  have hmem : r ∈ prompts s.items job := by
    rw [h.split]
    exact List.mem_append_right _ hr
  obtain ⟨hrow, hp⟩ := List.mem_filter.mp hmem
  exact ⟨hrow, (of_decide_eq_true hp).1⟩

/-- A claim for the job takes expired rows, then waiting ones in their order. -/
theorem claimed_cut (hc : Counted tr s) {old new : List ItemRow} (h : Cut tr s job old new)
    (size : Nat) : ∃ expired m, claimed s.items job size s.now = expired ++ new.take m ∧
      (∀ r ∈ expired, r.status = .claimed) := by
  have hfilter : s.items.rows.filter (claimable job s.now) =
      (prompts s.items job).filter (claimable job s.now) := by
    rw [prompts, List.filter_filter]
    refine List.filter_congr fun r hr => ?_
    by_cases hcl : claimable job s.now r = true
    · have hp := hc.prompt r hr (not_terminal_of_claimable hcl)
      simp [hcl, (claimable_iff.mp hcl).1, hp]
    · simp [hcl]
  have hnew : new.filter (claimable job s.now) = new := by
    refine List.filter_eq_self.mpr fun r hr => claimable_iff.mpr ?_
    exact ⟨(h.mem_new hr).2, .inl (h.waiting r hr)⟩
  refine ⟨(old.filter (claimable job s.now)).take size,
    size - (old.filter (claimable job s.now)).length, ?_, fun r hr => ?_⟩
  · rw [claimed, hfilter, h.split, List.filter_append, hnew, List.take_append]
  · obtain ⟨hr, hcl⟩ := List.mem_filter.mp (List.mem_of_mem_take hr)
    rcases (claimable_iff.mp hcl).2 with hp | ⟨hs, -⟩
    · exact absurd hp (h.started r hr)
    · exact hs

theorem Cut.sorted {old new : List ItemRow} (h : Cut tr s job old new) :
    (old ++ new).Pairwise fun r r' => r.id < r'.id := by
  rw [← h.split]
  exact s.items.idsSorted.filter _

/-- What a transaction takes from the waiting rows of the job. -/
structure Takes (s : QState) (l : Tx) (job : JobId) (new : List ItemRow) (m : Nat) : Prop where
  taken : ∀ r ∈ new.take m, r ∈ picked s l
  left : ∀ r ∈ new.drop m, r ∉ picked s l
  firsts : (firstOf job l).Perm ((new.take m).map (·.id))

theorem takes_none {new : List ItemRow} (hl : ∀ r ∈ new, r ∉ picked s l)
    (hf : firstOf job l = []) : Takes s l job new 0 := by
  refine ⟨fun r hr => ?_, fun r hr => hl r (List.mem_of_mem_drop hr), ?_⟩
  · rw [List.take_zero] at hr
    cases hr
  · rw [hf, List.take_zero]
    exact .nil

theorem exists_takes (hc : Counted tr s) {old new : List ItemRow} (h : Cut tr s job old new)
    (hst : txStep s l = some v) : ∃ m, Takes s l job new m := by
  cases l with
  | claimChunk j w size secs chunk =>
    by_cases hj : j = job
    · subst hj
      obtain ⟨expired, m, hpick, hexp⟩ := claimed_cut hc h size
      have hpick : picked s (.claimChunk j w size secs chunk) = expired ++ new.take m := hpick
      refine ⟨m, fun r hr => ?_, fun r hr hin => ?_, ?_⟩
      · rw [hpick]
        exact List.mem_append_right _ hr
      · rw [hpick] at hin
        rcases List.mem_append.mp hin with hin | hin
        · have hp := h.waiting r (List.mem_of_mem_drop hr)
          rw [hexp r hin] at hp
          cases hp
        · have hs := (List.pairwise_append.mp h.sorted).2.1
          rw [← List.take_append_drop m new] at hs
          have := (List.pairwise_append.mp hs).2.2 r hin r hr
          omega
      · have hold : expired.filter ((fun c => decide (c.attempts = 1)) ∘ claimedItem) = [] := by
          refine List.filter_eq_nil_iff.mpr fun r hr ha => ?_
          have hmem := picked_mem (hpick ▸ List.mem_append_left _ hr)
          have hp := (hc.first_iff hmem.1 hmem.2).mp (of_decide_eq_true ha)
          rw [hexp r hr] at hp
          cases hp
        have hnew : (new.take m).filter ((fun c => decide (c.attempts = 1)) ∘ claimedItem) =
            new.take m := by
          refine List.filter_eq_self.mpr fun r hr => decide_eq_true ?_
          have hmem := picked_mem (hpick ▸ List.mem_append_right expired hr)
          exact (hc.first_iff hmem.1 hmem.2).mpr (h.waiting r (List.mem_of_mem_take hr))
        have hperm := ((chunk_perm hst).filter fun c => c.attempts = 1).map fun c => c.id
        rw [hpick, List.filter_map, List.filter_append, hold, hnew, List.nil_append,
          List.map_map] at hperm
        rw [show firstOf j (.claimChunk j w size secs chunk) = _ from if_pos rfl]
        exact hperm
    · refine ⟨0, takes_none (fun r hr hin => hj ?_) (if_neg hj)⟩
      rw [← (h.mem_new hr).2, (claimable_iff.mp (mem_claimed hin).2).1]
  | _ => exact ⟨0, takes_none (fun _ _ => List.not_mem_nil) rfl⟩

theorem cut_step (hc : Counted tr s) {old new : List ItemRow} (h : Cut tr s job old new)
    (hst : txStep s l = some v) : ∃ old' new', Cut (tr ++ [⟨s, l, v⟩]) v job old' new' := by
  obtain ⟨m, ht⟩ := exists_takes hc h hst
  have hids : ∀ rows : List ItemRow, (rows.map (rowAfter s l)).map (·.id) = rows.map (·.id) := by
    intro rows
    rw [List.map_map]
    exact List.map_congr_left fun r _ => (rowAfter_sameKey s l r).1
  refine ⟨(old ++ new.take m).map (rowAfter s l), (new.drop m).map (rowAfter s l) ++
    (rowsAdded s l).filter (fun r => r.jobId = job ∧ r.prompt.isSome = true), ?_, fun r hr => ?_,
    fun r hr => ?_, ?_, ?_⟩
  · rw [prompts_after hst, h.split, ← List.append_assoc, ← List.map_append, List.append_assoc,
      List.take_append_drop]
  · obtain ⟨r₀, hr₀, rfl⟩ := List.mem_map.mp hr
    rcases List.mem_append.mp hr₀ with hr₀ | hr₀
    · exact rowAfter_started hst (h.started r₀ hr₀)
    · rw [(rowAfter_picked (ht.taken r₀ hr₀)).1]
      decide
  · rcases List.mem_append.mp hr with hr | hr
    · obtain ⟨r₀, hr₀, rfl⟩ := List.mem_map.mp hr
      have hp := h.waiting r₀ (List.mem_of_mem_drop hr₀)
      rw [rowAfter_waiting hp (ht.left r₀ hr₀), hp]
    · obtain ⟨hr, hp⟩ := List.mem_filter.mp hr
      rcases rowsAdded_prompt hr with ⟨hs, -⟩ | ⟨-, hn⟩
      · exact hs
      · have hp := (of_decide_eq_true hp).2
        rw [hn] at hp
        cases hp
  · rw [firsts, List.map_append, List.flatten_append, hids, List.map_append]
    exact h.firsts.append (by simpa [firsts] using ht.firsts)
  · rw [firsts, List.map_append]
    refine List.pairwise_append.mpr ⟨h.blocks, List.pairwise_singleton _ _, ?_⟩
    intro b hb c hcm i hi j hj
    obtain rfl := List.mem_singleton.mp hcm
    obtain ⟨r, hr, rfl⟩ := List.mem_map.mp (h.firsts.subset (List.mem_flatten_of_mem hb hi))
    obtain ⟨r', hr', rfl⟩ := List.mem_map.mp (ht.firsts.subset hj)
    exact (List.pairwise_append.mp h.sorted).2.2 r hr r' (List.mem_of_mem_take hr')

theorem cut_run (h : queue.Run tr s) (job : JobId) : ∃ old new, Cut tr s job old new := by
  refine (h.induct (P := fun tr s => Counted tr s ∧ ∃ old new, Cut tr s job old new) ?_ ?_).2
  · intro s hs
    refine ⟨counted_run (.nil hs), [], [], ?_, by simp, by simp, by simp [firsts], by simp [firsts]⟩
    have hrows : s.items = .empty := hs
    rw [prompts, hrows]
    rfl
  · intro tr s l v _ ⟨hc, old, new, ih⟩ hst
    exact ⟨counted_step hc hst, cut_step hc ih hst⟩

/-- An item says which delivery of its row it is. -/
theorem delivery_count (h : queue.Run tr s) {tr₁ tr₂ : List (Trans QState Tx)}
    {t : Trans QState Tx} (htr : tr = tr₁ ++ t :: tr₂) {c : ClaimedItem} (hc : c ∈ t.lbl.chunk) :
    c.attempts = deliveries tr₁ c.id + 1 := by
  subst htr
  obtain ⟨h₁, hst, -⟩ := h.split
  obtain ⟨r, hr, rfl⟩ := List.mem_map.mp ((chunk_perm hst).subset hc)
  obtain ⟨hrow, ht⟩ := picked_mem hr
  rw [claimedItem, (counted_run h₁).attempts r hrow ht]

/-- **Rows are handed out in order**, if the transactions act one at a time. In every
run of the atomic queue, whoever calls it, the items say truly which delivery of
their row they are, and among the prompts of a job those that were handed out come
first: each was handed out for the first time by one claim, no row was passed over,
and every claim took up where the ones before it left off. -/
theorem handed_out_in_order (h : queue.Run tr s) (job : JobId) :
    (∀ (tr₁ : List (Trans QState Tx)) (t : Trans QState Tx) (tr₂ : List (Trans QState Tx)),
      tr = tr₁ ++ t :: tr₂ → ∀ c ∈ t.lbl.chunk, c.attempts = deliveries tr₁ c.id + 1) ∧
    ((firsts job tr).Pairwise fun b c => ∀ i ∈ b, ∀ j ∈ c, i < j) ∧
    ∃ n, (firsts job tr).flatten.Perm (((prompts s.items job).take n).map (·.id)) ∧
      ∀ r ∈ (prompts s.items job).drop n, r.status = .pending := by
  obtain ⟨old, new, hcut⟩ := cut_run h job
  refine ⟨fun tr₁ t tr₂ htr c hc => delivery_count h htr hc, hcut.blocks, old.length, ?_, ?_⟩
  · rw [hcut.split, List.take_left]
    exact hcut.firsts
  · rw [hcut.split, List.drop_left]
    exact hcut.waiting

end run

/-! ## Non-vacuity -/

/-- The lease of row 1 runs out, and it is handed out again beside row 2. -/
def redelivered : List Tx :=
  [.bulkInsert "j" [⟨"a", "x"⟩, ⟨"b", "y"⟩, ⟨"c", "z"⟩] [] 3,
    .claimChunk "j" "w1" 1 30 [⟨1, "a", "x", 1⟩], .tick 40000000,
    .claimChunk "j" "w2" 2 30 [⟨2, "b", "y", 1⟩, ⟨1, "a", "x", 2⟩]]

theorem handed_out_in_order_again : ∃ tr s n, queue.Run tr s ∧
    firsts "j" tr = [[], [1], [], [2]] ∧ deliveries tr 1 = 2 ∧
      (firsts "j" tr).flatten.Perm (((prompts s.items "j").take n).map (·.id)) := by
  obtain ⟨⟨tr, s⟩, he, hf, hd⟩ : ∃ p, LTS.exec txStep ⟨0, .empty⟩ redelivered = some p ∧
      firsts "j" p.1 = [[], [1], [], [2]] ∧ deliveries p.1 1 = 2 :=
    ⟨_, rfl, by decide +kernel, by decide +kernel⟩
  have hr : queue.Run tr s := ⟨⟨0, .empty⟩, rfl, LTS.path_of_exec he⟩
  obtain ⟨-, -, n, hperm, -⟩ := handed_out_in_order hr "j"
  exact ⟨tr, s, n, hr, hf, hd, hperm⟩

end BatchSystem.Queue
