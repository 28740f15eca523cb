import BatchSystem.Core.FirstWins
import BatchSystem.Domain.Models

/-!
# The `prompt_items` table

The rows in the order of their `bigserial` ids, with the constraints of the
schema as fields: ids are distinct and below the sequence, and
`uq_prompt_items_job_external` holds. A statement either assigns
columns other than the keys to the rows its WHERE selects (`update`), or
inserts rows with ON CONFLICT DO NOTHING (`insertIgnore`); so every statement
returns a table that satisfies the constraints.

`created_at` and `updated_at` are read by no code and left out.
-/
namespace BatchSystem.Queue

open BatchSystem.Core Domain

/-- mirrors app/infrastructure/db/models.py:52-85 -/
structure ItemRow where
  id : Nat
  jobId : JobId
  externalId : String
  prompt : Option String
  status : ItemStatus := .pending
  attempts : Int := 0
  workerId : Option WorkerId := none
  leaseUntil : Option Int := none
  chunkId : Option String := none
  resultRef : Option String := none
  error : Option String := none
  deriving DecidableEq, Repr

namespace ItemRow

/-- The columns of `uq_prompt_items_job_external`. -/
def key (r : ItemRow) : JobId × String := (r.jobId, r.externalId)

/-- The row without its id. -/
def content (r : ItemRow) : ItemRow := { r with id := 0 }

/-- Same id, job, external id and prompt: what no UPDATE changes. -/
def SameKey (r r' : ItemRow) : Prop :=
  r'.id = r.id ∧ r'.jobId = r.jobId ∧ r'.externalId = r.externalId ∧ r'.prompt = r.prompt

/-- An assignment that leaves the key columns alone. -/
def KeepsKey (f : ItemRow → ItemRow) : Prop := ∀ r, SameKey r (f r)

theorem SameKey.refl (r : ItemRow) : SameKey r r := ⟨rfl, rfl, rfl, rfl⟩

theorem SameKey.trans {a b c : ItemRow} (h₁ : SameKey a b) (h₂ : SameKey b c) : SameKey a c :=
  ⟨h₂.1.trans h₁.1, h₂.2.1.trans h₁.2.1, h₂.2.2.1.trans h₁.2.2.1, h₂.2.2.2.trans h₁.2.2.2⟩

theorem SameKey.key_eq {r r' : ItemRow} (h : SameKey r r') : r'.key = r.key := by
  simp [key, h.2.1, h.2.2.1]

@[simp] theorem content_key (r : ItemRow) : r.content.key = r.key := rfl

end ItemRow

structure PromptItems where
  rows : List ItemRow
  nextId : Nat
  idsSorted : rows.Pairwise (·.id < ·.id)
  idsBelow : ∀ r ∈ rows, r.id < nextId
  uqJobExternal : (rows.map ItemRow.key).Nodup

namespace PromptItems
open ItemRow (KeepsKey)

def empty : PromptItems := ⟨[], 1, .nil, by simp, .nil⟩

variable (t : PromptItems)

theorem id_inj {r r' : ItemRow} (hr : r ∈ t.rows) (hr' : r' ∈ t.rows) (h : r.id = r'.id) :
    r = r' := by
  have hn : (t.rows.map ItemRow.id).Nodup :=
    List.pairwise_map.mpr (t.idsSorted.imp fun h => Nat.ne_of_lt h)
  exact List.inj_on_of_nodup_map hn hr hr' h

theorem key_inj {r r' : ItemRow} (hr : r ∈ t.rows) (hr' : r' ∈ t.rows)
    (hj : r.jobId = r'.jobId) (he : r.externalId = r'.externalId) : r = r' :=
  List.inj_on_of_nodup_map t.uqJobExternal hr hr' (by simp [ItemRow.key, hj, he])

/-! ## UPDATE -/

/-- `UPDATE ... SET f WHERE p` on one row. -/
def updateRow (p : ItemRow → Bool) (f : ItemRow → ItemRow) (r : ItemRow) : ItemRow :=
  if p r then f r else r

theorem updateRow_keeps {p : ItemRow → Bool} {f : ItemRow → ItemRow} (hf : KeepsKey f) :
    KeepsKey (updateRow p f) := by
  intro r
  unfold updateRow
  split
  · exact hf r
  · exact .refl r

/-- An assignment of columns to every row that keeps the key columns. -/
def mapRows (f : ItemRow → ItemRow) (hf : KeepsKey f) : PromptItems where
  rows := t.rows.map f
  nextId := t.nextId
  idsSorted := by
    rw [List.pairwise_map]
    exact t.idsSorted.imp fun {a b} h => by rw [(hf a).1, (hf b).1]; exact h
  idsBelow := by
    intro r' hr'
    obtain ⟨r, hr, rfl⟩ := List.mem_map.mp hr'
    rw [(hf r).1]
    exact t.idsBelow r hr
  uqJobExternal := by
    rw [List.map_map, show ItemRow.key ∘ f = ItemRow.key from funext fun r => (hf r).key_eq]
    exact t.uqJobExternal

/-- The table after an UPDATE and the number of rows it matched. -/
def update (p : ItemRow → Bool) (f : ItemRow → ItemRow) (hf : KeepsKey f) :
    PromptItems × Nat :=
  (t.mapRows (updateRow p f) (updateRow_keeps hf), t.rows.countP p)

@[simp] theorem mapRows_rows (f : ItemRow → ItemRow) (hf : KeepsKey f) :
    (t.mapRows f hf).rows = t.rows.map f := rfl

@[simp] theorem update_rows (p : ItemRow → Bool) (f : ItemRow → ItemRow)
    (hf : KeepsKey f) : (t.update p f hf).1.rows = t.rows.map (updateRow p f) := rfl

@[simp] theorem update_count (p : ItemRow → Bool) (f : ItemRow → ItemRow)
    (hf : KeepsKey f) : (t.update p f hf).2 = t.rows.countP p := rfl

/-! ## INSERT ... ON CONFLICT DO NOTHING -/

/-- The candidate rows with the ids that the sequence gives them. Every
candidate draws an id, whether or not it is inserted. -/
def number : Nat → List ItemRow → List ItemRow
  | _, [] => []
  | n, r :: rs => { r with id := n } :: number (n + 1) rs

theorem number_ids : ∀ (n : Nat) (rs : List ItemRow),
    ∀ r ∈ number n rs, n ≤ r.id ∧ r.id < n + rs.length
  | _, [], r, h => by simp [number] at h
  | n, x :: xs, r, h => by
    rcases List.mem_cons.mp h with rfl | h
    · simp
    · have := number_ids (n + 1) xs r h
      simp only [List.length_cons]; omega

theorem number_sorted : ∀ (n : Nat) (rs : List ItemRow),
    (number n rs).Pairwise (·.id < ·.id)
  | _, [] => .nil
  | n, _ :: rs => by
    refine .cons (fun r hr => ?_) (number_sorted (n + 1) rs)
    have := number_ids (n + 1) rs r hr
    simp only; omega

@[simp] theorem number_content : ∀ (n : Nat) (rs : List ItemRow),
    (number n rs).map ItemRow.content = rs.map ItemRow.content
  | _, [] => rfl
  | n, r :: rs => by simp [number, number_content, ItemRow.content]

/-- The rows that an insert adds. -/
def freshRows (cands : List ItemRow) : List ItemRow :=
  firstWins ItemRow.key (t.rows.map ItemRow.key) (number t.nextId cands)

theorem number_length (n : Nat) (rs : List ItemRow) : (number n rs).length = rs.length := by
  induction rs generalizing n with
  | nil => rfl
  | cons r rs ih => simp only [number, List.length_cons, ih]

theorem freshRows_length_le (cands : List ItemRow) : (t.freshRows cands).length ≤ cands.length := by
  rw [← number_length t.nextId cands]
  exact (firstWins_sublist _ _).length_le

theorem freshRows_ids {cands : List ItemRow} {r : ItemRow} (h : r ∈ t.freshRows cands) :
    t.nextId ≤ r.id ∧ r.id < t.nextId + cands.length :=
  number_ids _ _ r (firstWins_subset h)

/-- The table after the insert and the number of rows it added. -/
def insertIgnore (cands : List ItemRow) : PromptItems × Nat where
  fst :=
    { rows := t.rows ++ t.freshRows cands
      nextId := t.nextId + cands.length
      idsSorted := by
        refine List.pairwise_append.mpr ⟨t.idsSorted, ?_, fun a ha b hb => ?_⟩
        · exact (number_sorted _ _).sublist (firstWins_sublist _ _)
        · exact Nat.lt_of_lt_of_le (t.idsBelow a ha) (t.freshRows_ids hb).1
      idsBelow := by
        intro r hr
        rcases List.mem_append.mp hr with hr | hr
        · have := t.idsBelow r hr; omega
        · exact (t.freshRows_ids hr).2
      uqJobExternal := by
        rw [List.map_append]
        refine List.nodup_append.mpr ⟨t.uqJobExternal, firstWins_keys_nodup _ _, ?_⟩
        rintro a ha _ hb rfl
        exact (mem_firstWins_keys.mp hb).1 ha }
  snd := (t.freshRows cands).length

@[simp] theorem insertIgnore_rows (cands : List ItemRow) :
    (t.insertIgnore cands).1.rows = t.rows ++ t.freshRows cands := rfl

/-- Up to ids, the rows added are those candidates whose key is new. -/
theorem freshRows_content (cands : List ItemRow) : (t.freshRows cands).map ItemRow.content =
    firstWins ItemRow.key (t.rows.map ItemRow.key) (cands.map ItemRow.content) := by
  have h : (firstWins ItemRow.key (t.rows.map ItemRow.key) (number t.nextId cands)).map
      ItemRow.content = firstWins ItemRow.key (t.rows.map ItemRow.key)
        ((number t.nextId cands).map ItemRow.content) :=
    map_firstWins ItemRow.content ItemRow.content_key _ _
  rw [freshRows, h, number_content]

theorem fresh_of_mem {cands : List ItemRow} {r : ItemRow} (h : r ∈ t.freshRows cands) :
    ∃ c ∈ cands, r = { c with id := r.id } := by
  have hm : r.content ∈ (t.freshRows cands).map ItemRow.content := List.mem_map_of_mem h
  rw [freshRows_content] at hm
  obtain ⟨c, hc, he⟩ := List.mem_map.mp (firstWins_subset hm)
  refine ⟨c, hc, ?_⟩
  have hid : r = { r.content with id := r.id } := rfl
  rw [hid, ← he]; rfl

end PromptItems
end BatchSystem.Queue
