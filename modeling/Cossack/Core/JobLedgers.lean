import Cossack.Core.JobStores
import Cossack.Lib.Machines
import Cossack.Lib.Records
import Mathlib

/-! # Whole job stores

    `MemoryJobStore` and `createD1JobStore` as machines: all keys, the checks of
    their arguments and `inspect` included.  `JobStores` has what they do to the
    record of one key. -/

namespace Cossack.Core.JobLedgers

open Jobs (JobStatus JobFailureCode JobAction)

/-! ## Section 1: Calls and answers -/

structure JobInspection where
  key : String
  job : String
  status : JobStatus
  attempt : Nat
  updatedAt : Int
  code : Option JobFailureCode
  action : Option JobAction
  deriving DecidableEq

structure JobClaimOptions where
  now : Int
  leaseMs : Int
  job : String

structure JobFailure where
  terminal : Bool
  now : Int
  retryAt : Int
  code : JobFailureCode
  action : JobAction

structure InspectOptions where
  status : Option JobStatus
  limit : Option Int

inductive JobClaim (T : Type) where
  | acquired (token : T) (attempt : Nat)
  | busy (retryAfterSeconds : Int)
  | completed
  | failed
  deriving DecidableEq

/-- A call of the store; a claim comes with the token that would be drawn. -/
inductive Call (T : Type) where
  | claim (key : String) (options : JobClaimOptions) (randomUUID : T)
  | complete (key : String) (token : T) (now : Int)
  | fail (key : String) (token : T) (failure : JobFailure)
  | inspect (options : InspectOptions)

inductive Answer (T : Type) where
  | claim (claim : JobClaim T)
  | settled (ok : Bool)
  | rows (rows : List JobInspection)
  | thrown (message : String)
  deriving DecidableEq

/-- `Math.ceil(ms / 1000)`. -/
def ceilSeconds (ms : Int) : Int := -((-ms) / 1000)

def maxSafeInteger : Int := 2 ^ 53 - 1

def isSafeInteger (n : Int) : Bool := -maxSafeInteger ≤ n && n ≤ maxSafeInteger

def hexDigit (c : Char) : Bool := ('a' ≤ c && c ≤ 'f') || ('0' ≤ c && c ≤ '9')

/-- `/^[a-f0-9]{64}$/`. -/
def runtimeKey (key : String) : Bool := key.toList.length = 64 && key.toList.all hexDigit

def nameCharacter (c : Char) : Bool :=
  ('A' ≤ c && c ≤ 'Z') || ('a' ≤ c && c ≤ 'z') || ('0' ≤ c && c ≤ '9') ||
    c = '_' || c = '.' || c = '-'

/-- `/^[A-Za-z0-9_.-]{1,128}$/`. -/
def jobName (job : String) : Bool :=
  1 ≤ job.toList.length && job.toList.length ≤ 128 && job.toList.all nameCharacter

def inspectLimit (options : InspectOptions) : Int := options.limit.getD 100

def validLimit (options : InspectOptions) : Bool :=
  1 ≤ inspectLimit options && inspectLimit options ≤ 1000

/-! ## Section 2: `MemoryJobStore` -/

structure RecordState (T : Type) where
  inspection : JobInspection
  token : Option T
  expiresAt : Option Int

abbrev MemoryJobStore (T : Type) := Record (RecordState T)

variable {T : Type} [DecidableEq T]

namespace MemoryJobStore

def acquire (records : MemoryJobStore T) (key : String) (options : JobClaimOptions) (token : T)
    (attempt : Nat) : MemoryJobStore T × Answer T :=
  (records.set key
    { inspection :=
        { key, job := options.job, status := .running, attempt, updatedAt := options.now
          code := none, action := none }
      token := some token
      expiresAt := some (options.now + options.leaseMs) },
    .claim (.acquired token attempt))

def claim (records : MemoryJobStore T) (key : String) (options : JobClaimOptions) (token : T) :
    MemoryJobStore T × Answer T :=
  match records.get key with
  | none => acquire records key options token 1
  | some previous =>
    if previous.inspection.status = .completed then (records, .claim .completed)
    else if previous.inspection.status = .failed then (records, .claim .failed)
    else if (previous.token.isSome || previous.inspection.status == .retrying) &&
        previous.expiresAt.any (options.now < ·) then
      (records, .claim (.busy (ceilSeconds (previous.expiresAt.getD 0 - options.now))))
    else acquire records key options token (previous.inspection.attempt + 1)

def complete (records : MemoryJobStore T) (key : String) (token : T) (now : Int) :
    MemoryJobStore T × Answer T :=
  match records.get key with
  | none => (records, .settled false)
  | some state =>
    if state.token ≠ some token then (records, .settled false)
    else
      (records.set key
        { inspection := { state.inspection with status := .completed, updatedAt := now }
          token := none
          expiresAt := none },
        .settled true)

def fail (records : MemoryJobStore T) (key : String) (token : T) (failure : JobFailure) :
    MemoryJobStore T × Answer T :=
  if failure.retryAt < failure.now || 86400 * 1000 < failure.retryAt - failure.now then
    (records, .thrown "[Cossack] Invalid job retry deadline.")
  else
    match records.get key with
    | none => (records, .settled false)
    | some state =>
      if state.token ≠ some token then (records, .settled false)
      else
        (records.set key
          { inspection :=
              { state.inspection with
                status := if failure.terminal then .failed else .retrying
                updatedAt := failure.now, code := some failure.code
                action := some failure.action }
            token := none
            expiresAt := if failure.terminal then none else some failure.retryAt },
          .settled true)

/-- The comparator of `inspect`, as `≤`: the latest first, then by key. -/
def before (localeCompare : String → String → Int) (a b : JobInspection) : Bool :=
  if b.updatedAt - a.updatedAt = 0 then localeCompare a.key b.key ≤ 0
  else b.updatedAt - a.updatedAt < 0

def inspect (localeCompare : String → String → Int) (records : MemoryJobStore T)
    (options : InspectOptions) : MemoryJobStore T × Answer T :=
  if !validLimit options then
    (records, .thrown "[Cossack] Job inspection limit must be between 1 and 1000.")
  else
    let inspections := records.entries.map (·.2.inspection)
    let chosen := inspections.filter fun r => options.status.all (r.status == ·)
    (records, .rows ((chosen.mergeSort (before localeCompare)).take (inspectLimit options).toNat))

def step (localeCompare : String → String → Int) (records : MemoryJobStore T) :
    Call T → MemoryJobStore T × Answer T
  | .claim key options token => claim records key options token
  | .complete key token now => complete records key token now
  | .fail key token failure => fail records key token failure
  | .inspect options => inspect localeCompare records options

end MemoryJobStore

/-! ## Section 3: `createD1JobStore` -/

/-- A row of `cossack_jobs`, without its primary key. -/
structure StateRow (T : Type) where
  job : String
  status : JobStatus
  attempt : Nat
  updatedAt : Int
  leaseUntil : Int
  token : T
  code : Option JobFailureCode
  action : Option JobAction

/-- The table, by primary key. -/
abbrev JobTable (T : Type) := Record (StateRow T)

namespace D1JobStore

/-- `INSERT … ON CONFLICT(key) DO UPDATE … WHERE … RETURNING attempt`. -/
def upsert (table : JobTable T) (key : String) (options : JobClaimOptions) (token : T) :
    JobTable T × Option Nat :=
  match table.get key with
  | none =>
    (table.set key
      { job := options.job, status := .running, attempt := 1, updatedAt := options.now
        leaseUntil := options.now + options.leaseMs, token, code := none, action := none },
      some 1)
  | some old =>
    if (old.status = .retrying ∨ old.status = .running) ∧ old.leaseUntil ≤ options.now then
      (table.set key
        { old with
          status := .running, attempt := old.attempt + 1, updatedAt := options.now
          leaseUntil := options.now + options.leaseMs, token, code := none, action := none },
        some (old.attempt + 1))
    else (table, none)

/-- The answer to a claim that acquired nothing. -/
def unavailable (table : JobTable T) (key : String) (options : JobClaimOptions) : JobClaim T :=
  match (table.get key).map StateRow.status with
  | some .completed => .completed
  | some .failed => .failed
  | _ =>
    let leaseUntil := ((table.get key).map StateRow.leaseUntil).getD (options.now + 1000)
    .busy (max 1 (min 86400 (ceilSeconds (leaseUntil - options.now))))

/-- The answer to a claim, from what the upsert returned. -/
def claimed (table : JobTable T) (key : String) (options : JobClaimOptions) (token : T) :
    Option Nat → JobClaim T
  | some attempt => .acquired token attempt
  | none => unavailable table key options

def claim (table : JobTable T) (key : String) (options : JobClaimOptions) (token : T) :
    JobTable T × Answer T :=
  if !runtimeKey key then (table, .thrown "Job state requires a runtime-generated key.")
  else if !isSafeInteger options.now || !isSafeInteger options.leaseMs ||
      options.leaseMs ≤ 0 || !jobName options.job then
    (table, .thrown "Invalid job state claim.")
  else
    let acquired := upsert table key options token
    (acquired.1, .claim (claimed acquired.1 key options token acquired.2))

/-- `UPDATE … WHERE key=? AND token=? AND status='running'`: whether a row was changed. -/
def updateRunning (table : JobTable T) (key : String) (token : T)
    (set : StateRow T → StateRow T) : JobTable T × Answer T :=
  match table.get key with
  | none => (table, .settled false)
  | some row =>
    if row.token = token ∧ row.status = .running then (table.set key (set row), .settled true)
    else (table, .settled false)

def complete (table : JobTable T) (key : String) (token : T) (now : Int) :
    JobTable T × Answer T :=
  if !runtimeKey key then (table, .thrown "Job state requires a runtime-generated key.")
  else
    updateRunning table key token fun row =>
      { row with
        status := .completed, updatedAt := now, leaseUntil := 0, code := none, action := none }

def fail (table : JobTable T) (key : String) (token : T) (failure : JobFailure) :
    JobTable T × Answer T :=
  if !runtimeKey key then (table, .thrown "Job state requires a runtime-generated key.")
  else
    updateRunning table key token fun row =>
      { row with
        status := if failure.terminal then .failed else .retrying
        updatedAt := failure.now
        leaseUntil := if failure.terminal then 0 else failure.retryAt
        code := some failure.code, action := some failure.action }

def inspection (entry : String × StateRow T) : JobInspection where
  key := entry.1
  job := entry.2.job
  status := entry.2.status
  attempt := entry.2.attempt
  updatedAt := entry.2.updatedAt
  code := entry.2.code
  action := entry.2.action

/-- `ORDER BY updated_at DESC,key`. -/
def before (a b : JobInspection) : Bool :=
  if a.updatedAt = b.updatedAt then a.key ≤ b.key else b.updatedAt < a.updatedAt

def inspect (table : JobTable T) (options : InspectOptions) : JobTable T × Answer T :=
  if !validLimit options then (table, .thrown "Invalid job inspection options.")
  else
    let chosen := (table.entries.map inspection).filter fun r => options.status.all (r.status == ·)
    (table, .rows ((chosen.mergeSort before).take (inspectLimit options).toNat))

def step (table : JobTable T) : Call T → JobTable T × Answer T
  | .claim key options token => claim table key options token
  | .complete key token now => complete table key token now
  | .fail key token failure => fail table key token failure
  | .inspect options => inspect table options

end D1JobStore

end Cossack.Core.JobLedgers
