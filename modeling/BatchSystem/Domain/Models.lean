import Mathlib.Data.Rat.Defs

/-!
# Domain models and settings

The value objects that the queue, the storage, the ingestor and the engine
pass to each other (`app/domain/`) and the settings they read
(`app/core/config.py`).

A Python `str` without lone surrogates is a Lean `String` (both are sequences
of Unicode scalar values). A UUID is its canonical text. An instant of the
database clock is an `Int` number of microseconds, as in a Postgres
`timestamptz`.
-/
namespace BatchSystem.Domain

abbrev JobId := String
abbrev WorkerId := String

/-- `make_interval(secs => n)`, in microseconds. -/
def makeInterval (secs : Int) : Int := secs * 1000000

/-- mirrors app/domain/enums.py:7-12 -/
inductive JobState where
  | pending | ingesting | running | completed | failed
  deriving DecidableEq, Repr

/-- mirrors app/domain/enums.py:15-19 -/
inductive ItemStatus where
  | pending | claimed | succeeded | failed
  deriving DecidableEq, Repr

/-- A finished row: `SUCCEEDED` or `FAILED`. -/
def ItemStatus.terminal : ItemStatus → Bool
  | .succeeded | .failed => true
  | .pending | .claimed => false

/-- mirrors app/domain/models.py:12-17 -/
structure PromptItem where
  externalId : String
  prompt : String
  deriving DecidableEq, Repr

/-- mirrors app/domain/models.py:20-26 -/
structure ClaimedItem where
  id : Nat
  externalId : String
  prompt : String
  attempts : Int := 0
  deriving DecidableEq, Repr

/-- mirrors app/domain/results.py:24-32 -/
structure ResultRecord where
  externalId : String
  status : ItemStatus
  response : Option String := none
  error : Option String := none
  attempts : Int := 0
  latencyMs : Option Int := none
  deriving DecidableEq, Repr

/-- mirrors app/domain/results.py:9-14 -/
structure InferenceRequest where
  model : String
  prompt : String
  maxTokens : Int := 2048
  deriving DecidableEq, Repr

/-- mirrors app/domain/models.py:65-70 -/
structure IngestSummary where
  total : Nat
  accepted : Nat
  rejected : Nat
  deriving DecidableEq, Repr

/-- The settings that the modelled code reads, with their defaults.
mirrors app/core/config.py:7-57 -/
structure Settings where
  llmModel : String := "llama3-8b-instruct"
  workerPoolSize : Nat := 4
  chunkSize : Nat := 50
  retryMaxAttempts : Nat := 5
  retryBase : Rat := 1
  retryFactor : Rat := 2
  retryCap : Rat := 30
  leaseTtlSeconds : Int := 120
  heartbeatSeconds : Int := 30
  maxPromptTokens : Int := 120000
  maxOutputTokens : Int := 2048
  minPromptChars : Int := 1
  rejectDuplicateIds : Bool := true
  deriving DecidableEq, Repr

end BatchSystem.Domain
