import BatchSystem.Core.Batching
import BatchSystem.Core.Json
import BatchSystem.Ingest.Validation
import BatchSystem.Service.JobRepository

/-!
# `BatchIngestor`

The loop over the elements of the input array. Whatever an element is, it adds
one entry, a prompt to insert or a failed record, so the `bulk_insert` calls
are the entries cut into blocks of 500 (`ingestLoop_batches`): an ingest is a
function of the file, and the table is written only by its calls.

`str(raw_id)` of a decimal, a list or an object is the parameter `text`; every
result holds for any such function.

A `bulk_insert` that the database refuses raises, and `ingest` does not return;
`ingest` is the run in which every call commits.
-/
namespace BatchSystem.Ingest

open BatchSystem.Core Domain Queue Service
open Core.Json (lookup dumpNum)

/-- mirrors app/services/ingestor.py:27 -/
def insertBatch : Nat := 500

/-- `f"row-{n}"`. -/
def rowName (n : Nat) : String := "row-" ++ toString n

variable (text : Json → String)

/-- `str(value)`. -/
def pyStr : Json → String
  | .str s => s
  | .num n => String.ofList (dumpNum n)
  | .bool true => "True"
  | .bool false => "False"
  | .null => "None"
  | v => text v

/-- The element's `id` as text, or the row's name when it has none.
mirrors app/services/ingestor.py:47-48 -/
def externalIdOf (ms : List (String × Json)) (rowNumber : Nat) : String :=
  match lookup ms "id" with
  | none | some .null => rowName rowNumber
  | some v => if v.isStr "" then rowName rowNumber else pyStr text v

/-- mirrors app/services/ingestor.py:43-52 -/
def toItem (obj : Json) (rowNumber : Nat) : Option PromptItem × Option String :=
  match obj with
  | .obj ms =>
    match lookup ms "prompt" with
    | some (.str prompt) =>
      (some { externalId := externalIdOf text ms rowNumber, prompt },
        some (externalIdOf text ms rowNumber))
    | _ => (none, some (externalIdOf text ms rowNumber))
  | _ => (none, some (rowName rowNumber))

/-- `external_id or f"row-{n}"`. -/
def orRowName (externalId : Option String) (n : Nat) : String :=
  match externalId with
  | none => rowName n
  | some s => if s = "" then rowName n else s

/-- What one element adds: a prompt to insert, or a failed record. -/
inductive Entry where
  | accepted (item : PromptItem)
  | rejected (fr : ResultRecord)
  deriving DecidableEq, Repr

def Entry.externalId : Entry → String
  | .accepted item => item.externalId
  | .rejected fr => fr.externalId

def Entry.item? : Entry → Option PromptItem
  | .accepted item => some item
  | .rejected _ => none

def Entry.failed? : Entry → Option ResultRecord
  | .accepted _ => none
  | .rejected fr => some fr

variable (rules : List ValidationRule)

/-- The body of the loop up to the flush, for element number `n`.
mirrors app/services/ingestor.py:71-94 -/
def entryOf (n : Nat) (obj : Json) (ctx : ValidationContext) : Entry × ValidationContext :=
  match toItem text obj n with
  | (none, externalId) =>
    (.rejected
      { externalId := orRowName externalId n, status := .failed,
        error := some "validation: malformed item (missing/invalid prompt)" }, ctx)
  | (some item, _) =>
    let o := validateItem rules item ctx
    if o.1.ok then (.accepted item, o.2)
    else (.rejected
      { externalId := item.externalId, status := .failed,
        error := some ("validation: " ++ "; ".intercalate o.1.errors) }, o.2)

/-- The variables of `ingest`; `flushed` are the arguments of its
`bulk_insert` calls so far. -/
structure IngestState where
  ctx : ValidationContext := {}
  total : Nat := 0
  accepted : Nat := 0
  rejected : Nat := 0
  items : List PromptItem := []
  failed : List ResultRecord := []
  flushed : List (List PromptItem × List ResultRecord) := []

/-- mirrors app/services/ingestor.py:61-65 -/
def IngestState.flush (st : IngestState) : IngestState :=
  if st.items = [] ∧ st.failed = [] then st
  else { st with items := [], failed := [], flushed := st.flushed ++ [(st.items, st.failed)] }

def IngestState.add (st : IngestState) (e : Entry) : IngestState :=
  match e with
  | .accepted item => { st with accepted := st.accepted + 1, items := st.items ++ [item] }
  | .rejected fr => { st with rejected := st.rejected + 1, failed := st.failed ++ [fr] }

/-- mirrors app/services/ingestor.py:70-96 -/
def ingestStep (st : IngestState) (obj : Json) : IngestState :=
  let r := entryOf text rules (st.total + 1) obj st.ctx
  let st := { st with total := st.total + 1, ctx := r.2 }.add r.1
  if insertBatch ≤ st.items.length + st.failed.length then st.flush else st

/-- mirrors app/services/ingestor.py:54-97 -/
def ingestLoop (elements : List Json) : IngestState :=
  (elements.foldl (ingestStep text rules) {}).flush

/-- mirrors app/services/ingestor.py:54-109 -/
def ingest (t : PromptItems) (jobs : Jobs) (job : JobId) (elements : List Json) :
    PromptItems × Jobs × IngestSummary :=
  let st := ingestLoop text rules elements
  (st.flushed.foldl (fun t b => (bulkInsert t job b.1 b.2).1) t,
    jobs.setTotal job st.total,
    { total := st.total, accepted := st.accepted, rejected := st.rejected })

/-! ## The entries -/

/-- The entries of the elements from number `n + 1` on. -/
def entriesFrom : Nat → ValidationContext → List Json → List Entry
  | _, _, [] => []
  | n, ctx, obj :: objs =>
    let r := entryOf text rules (n + 1) obj ctx
    r.1 :: entriesFrom (n + 1) r.2 objs

def entries (elements : List Json) : List Entry := entriesFrom text rules 0 {} elements

/-- A block of entries as the arguments of one `bulk_insert`. -/
def batch (es : List Entry) : List PromptItem × List ResultRecord :=
  (es.filterMap Entry.item?, es.filterMap Entry.failed?)

variable {text rules}

theorem entriesFrom_length (n : Nat) (ctx : ValidationContext) (objs : List Json) :
    (entriesFrom text rules n ctx objs).length = objs.length := by
  induction objs generalizing n ctx with
  | nil => rfl
  | cons obj objs ih => simp [entriesFrom, ih]

theorem batch_append (es fs : List Entry) :
    batch (es ++ fs) = ((batch es).1 ++ (batch fs).1, (batch es).2 ++ (batch fs).2) := by
  simp [batch]

theorem batch_singleton (e : Entry) : batch [e] = (e.item?.toList, e.failed?.toList) := by
  cases e <;> rfl

theorem batch_length (es : List Entry) : (batch es).1.length + (batch es).2.length = es.length := by
  induction es with
  | nil => rfl
  | cons e es ih =>
    rw [← List.singleton_append, batch_append, batch_singleton]
    cases e <;> simp [Entry.item?, Entry.failed?] <;> omega

/-- The variables of the loop hold a buffer of entries. -/
structure Holds (st : IngestState) (buf : Buffer Entry) : Prop where
  pending : (st.items, st.failed) = batch buf.held
  flushed : st.flushed = buf.handed.map batch

theorem Holds.empty_iff {st : IngestState} {buf : Buffer Entry} (h : Holds st buf) :
    st.items = [] ∧ st.failed = [] ↔ buf.held = [] := by
  have hl := batch_length buf.held
  rw [← h.pending] at hl
  simp only [← List.length_eq_zero_iff] at hl ⊢
  omega

theorem Holds.flush {st : IngestState} {buf : Buffer Entry} (h : Holds st buf) :
    Holds st.flush buf.drain := by
  unfold IngestState.flush Buffer.drain
  by_cases he : buf.held = []
  · rw [if_pos (h.empty_iff.mpr he), if_pos he]; exact h
  · rw [if_neg fun hn => he (h.empty_iff.mp hn), if_neg he]
    exact ⟨rfl, by simp [h.flushed, h.pending]⟩

theorem Holds.add {st : IngestState} {buf : Buffer Entry} (h : Holds st buf) (e : Entry) :
    Holds (st.add e) { buf with held := buf.held ++ [e] } := by
  have hp := h.pending
  refine ⟨?_, by cases e <;> exact h.flushed⟩
  rw [batch_append, batch_singleton, ← hp]
  cases e <;> simp [IngestState.add, Entry.item?, Entry.failed?]

/-- One iteration pushes the element's entry. -/
theorem Holds.step {st : IngestState} {buf : Buffer Entry} (h : Holds st buf) (obj : Json) :
    Holds (ingestStep text rules st obj)
      (buf.push insertBatch (entryOf text rules (st.total + 1) obj st.ctx).1) := by
  generalize he : entryOf text rules (st.total + 1) obj st.ctx = r
  have h' : Holds { st with total := st.total + 1, ctx := r.2 } buf := ⟨h.pending, h.flushed⟩
  have ha := h'.add r.1
  have hl := batch_length (buf.held ++ [r.1])
  rw [← ha.pending] at hl
  simp only [ingestStep, Buffer.push, he, hl]
  split
  · exact ha.flush
  · exact ha

/-- The counters of an iteration and the context after it. -/
theorem ingestStep_counters (st : IngestState) (obj : Json) :
    let r := entryOf text rules (st.total + 1) obj st.ctx
    let st' := ingestStep text rules st obj
    st'.total = st.total + 1 ∧ st'.ctx = r.2 ∧
      st'.accepted = st.accepted + (batch [r.1]).1.length ∧
      st'.rejected = st.rejected + (batch [r.1]).2.length := by
  have hf : ∀ st : IngestState, st.flush.total = st.total ∧ st.flush.ctx = st.ctx ∧
      st.flush.accepted = st.accepted ∧ st.flush.rejected = st.rejected := by
    intro st; unfold IngestState.flush; split <;> exact ⟨rfl, rfl, rfl, rfl⟩
  intro r st'
  have ha : ({ st with total := st.total + 1, ctx := r.2 }.add r.1).total = st.total + 1 ∧
      ({ st with total := st.total + 1, ctx := r.2 }.add r.1).ctx = r.2 ∧
      ({ st with total := st.total + 1, ctx := r.2 }.add r.1).accepted =
        st.accepted + (batch [r.1]).1.length ∧
      ({ st with total := st.total + 1, ctx := r.2 }.add r.1).rejected =
        st.rejected + (batch [r.1]).2.length := by
    cases r.1 <;> exact ⟨rfl, rfl, rfl, rfl⟩
  show (ingestStep text rules st obj).total = _ ∧ _
  simp only [st', ingestStep]
  split
  · obtain ⟨f1, f2, f3, f4⟩ := hf ({ st with total := st.total + 1, ctx := r.2 }.add r.1)
    exact ⟨f1.trans ha.1, f2.trans ha.2.1, f3.trans ha.2.2.1, f4.trans ha.2.2.2⟩
  · exact ha

theorem foldl_ingestStep (objs : List Json) (st : IngestState) (buf : Buffer Entry)
    (h : Holds st buf) :
    let es := entriesFrom text rules st.total st.ctx objs
    let st' := objs.foldl (ingestStep text rules) st
    Holds st' (es.foldl (Buffer.push insertBatch) buf) ∧ st'.total = st.total + objs.length ∧
      st'.accepted = st.accepted + (batch es).1.length ∧
      st'.rejected = st.rejected + (batch es).2.length := by
  induction objs generalizing st buf with
  | nil => exact ⟨h, rfl, rfl, rfl⟩
  | cons obj objs ih =>
    obtain ⟨h1, h2, h3, h4⟩ := @ingestStep_counters text rules st obj
    obtain ⟨k1, k2, k3, k4⟩ := ih _ _ (h.step obj)
    rw [h1, h2] at k1 k3 k4
    simp only [entriesFrom, List.foldl_cons, List.length_cons]
    rw [← List.singleton_append, batch_append]
    simp only [List.length_append]
    exact ⟨k1, by omega, by omega, by omega⟩

variable (text rules) in
/-- The `bulk_insert` calls of an ingest: the entries in blocks of 500. -/
theorem ingestLoop_batches (elements : List Json) :
    ∃ bs, Blocks insertBatch bs (entries text rules elements) ∧
      (ingestLoop text rules elements).flushed = bs.map batch := by
  have h := (@foldl_ingestStep text rules elements {} {} ⟨rfl, rfl⟩).1.flush
  exact ⟨_, Buffer.drain_push (by decide) _, h.flushed⟩

variable (text rules) in
theorem ingestLoop_counters (elements : List Json) :
    (ingestLoop text rules elements).total = elements.length ∧
    (ingestLoop text rules elements).accepted = (batch (entries text rules elements)).1.length ∧
    (ingestLoop text rules elements).rejected = (batch (entries text rules elements)).2.length := by
  obtain ⟨-, h2, h3, h4⟩ :=
    @foldl_ingestStep text rules elements {} {} ⟨rfl, rfl⟩
  have hf : ∀ st : IngestState, st.flush.total = st.total ∧
      st.flush.accepted = st.accepted ∧ st.flush.rejected = st.rejected := by
    intro st; unfold IngestState.flush; split <;> exact ⟨rfl, rfl, rfl⟩
  obtain ⟨f1, f2, f3⟩ := hf (elements.foldl (ingestStep text rules) {})
  unfold ingestLoop
  rw [f1, f2, f3, h2, h3, h4]
  simp [entries]

end BatchSystem.Ingest
