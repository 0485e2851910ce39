import Cossack.Core.NotificationStores
import Cossack.Lib.Machines
import Cossack.Lib.Records
import Cossack.Lib.SqlExpressions
import Mathlib

/-! # Whole notification stores

    `MemoryNotificationStore` and `createD1NotificationStore` as machines: all
    notifications with all their data, the checks of the arguments, and the
    conditions of the statements in three-valued logic.  `NotificationStores` has
    what a delivery does to one notification. -/

namespace Cossack.Core.NotificationLedgers

open Notifications (NotificationChannel NotificationStatus NotificationFailureCode Idempotency
  NotificationContent)
open SqlExpressions (Truth and3 or3 all3 any3 eq3 ne3)

/-! ## Section 1: Records, calls and answers -/

structure NotificationRecipient where
  tenantId : String
  userId : String
  email : Option String
  deriving DecidableEq

/-- A notification; `data` is its JSON text. -/
structure NotificationRecord where
  id : String
  key : String
  template : String
  channel : NotificationChannel
  recipient : NotificationRecipient
  content : NotificationContent
  data : String
  status : NotificationStatus
  createdAt : Nat
  updatedAt : Nat
  attempt : Nat
  read : Bool
  code : Option NotificationFailureCode
  messageId : Option String
  deriving DecidableEq

structure NotificationFinish where
  status : NotificationStatus
  now : Nat
  code : Option NotificationFailureCode
  messageId : Option String

inductive NotificationClaim (T : Type) where
  | acquired (token : T) (record : NotificationRecord) (sending : Option Idempotency)
  | busy
  | missing
  | terminal (record : NotificationRecord)
  deriving DecidableEq

/-- A call of the store; a claim comes with the token that would be drawn. -/
inductive Call (T : Type) where
  | insert (record : NotificationRecord)
  | claim (id : String) (now leaseMs : Nat) (randomUUID : T)
  | beginSend (id : String) (token : T) (now : Nat) (idempotency : Idempotency)
  | finish (id : String) (token : T) (result : NotificationFinish)
  | recordDelivered (id messageId : String) (now : Nat)
  | setRead (id tenantId userId : String) (read : Bool)

inductive Answer (T : Type) where
  | inserted (created : Bool) (record : NotificationRecord)
  | claim (claim : NotificationClaim T)
  | settled (ok : Bool)
  | thrown (message : String)
  deriving DecidableEq

def hexDigit (c : Char) : Bool := ('a' ≤ c && c ≤ 'f') || ('0' ≤ c && c ≤ '9')

/-- `/^[a-f0-9]{64}$/`. -/
def digestKey (key : String) : Bool := key.toList.length = 64 && key.toList.all hexDigit

/-- `text.length`, in UTF-16 units. -/
def unitLength (text : String) : Nat :=
  (text.toList.map fun c => if c.toNat < 0x10000 then 1 else 2).sum

/-! ## Section 2: `MemoryNotificationStore` -/

structure StoredNotification (T : Type) where
  record : NotificationRecord
  token : Option T
  expiresAt : Option Nat
  sending : Option Idempotency

structure MemoryNotificationStore (T : Type) where
  records : Record (StoredNotification T)
  keys : Record String

variable {T : Type} [DecidableEq T]

namespace MemoryNotificationStore

def empty : MemoryNotificationStore T := ⟨Record.empty, Record.empty⟩

def put (store : MemoryNotificationStore T) (id : String) (item : StoredNotification T) :
    MemoryNotificationStore T :=
  { store with records := store.records.set id item }

def insert (store : MemoryNotificationStore T) (record : NotificationRecord) :
    MemoryNotificationStore T × Answer T :=
  if record.status ≠ .queued ∨ record.attempt ≠ 0 ∨ record.read ≠ false ∨
      digestKey record.key = false ∨ record.id = "" ∨ 128 < unitLength record.id then
    (store, .thrown "Notification storage record is invalid.")
  else
    match (store.keys.get record.key).bind store.records.get with
    | some existing => (store, .inserted false existing.record)
    | none =>
      if (store.records.get record.id).isSome then
        (store, .thrown "Notification storage identity conflict.")
      else
        ({ records := store.records.set record.id ⟨record, none, none, none⟩
           keys := store.keys.set record.key record.id },
          .inserted true record)

def claim (store : MemoryNotificationStore T) (id : String) (now leaseMs : Nat) (token : T) :
    MemoryNotificationStore T × Answer T :=
  match store.records.get id with
  | none => (store, .claim .missing)
  | some item =>
    if item.record.status ≠ .queued then (store, .claim (.terminal item.record))
    else if item.token.isSome && item.expiresAt.any (now < ·) then (store, .claim .busy)
    else if item.sending = some .none then
      let record :=
        { item.record with status := .unknown, code := some .deliveryUnknown, updatedAt := now }
      (store.put id ⟨record, none, none, none⟩, .claim (.terminal record))
    else
      let record := { item.record with attempt := item.record.attempt + 1, updatedAt := now }
      (store.put id ⟨record, some token, some (now + leaseMs), item.sending⟩,
        .claim (.acquired token record item.sending))

/-- The notification is queued and the token holds its lease. -/
def StoredNotification.holds (item : StoredNotification T) (token : T) (now : Nat) : Bool :=
  item.token = some token && item.expiresAt.all (now < ·) && item.record.status = .queued

def beginSend (store : MemoryNotificationStore T) (id : String) (token : T) (now : Nat)
    (idempotency : Idempotency) : MemoryNotificationStore T × Answer T :=
  match store.records.get id with
  | none => (store, .settled false)
  | some item =>
    if !StoredNotification.holds item token now then (store, .settled false)
    else if item.sending = some .provider ∧ idempotency ≠ .provider then (store, .settled false)
    else
      (store.put id
        { item with sending := some idempotency, record := { item.record with updatedAt := now } },
        .settled true)

/-- The results that `finish` refuses of a notification whose lease is held. -/
def refusesFinish (channel : NotificationChannel) (sending : Option Idempotency)
    (status : NotificationStatus) (code : Option NotificationFailureCode) : Bool :=
  (status = .providerAccepted && (channel ≠ .email || sending = none)) ||
    (status = .delivered && (channel ≠ .inApp || sending.isSome)) ||
    (status = .queued && sending.isSome && code ≠ some .providerRejected &&
      !(sending = some .provider && code = some .deliveryUnknown))

/-- What is left of the marker of a send. -/
def sendingAfter (sending : Option Idempotency) (status : NotificationStatus)
    (code : Option NotificationFailureCode) : Option Idempotency :=
  if !(status = .queued && code = some .deliveryUnknown && sending = some .provider) then none
  else sending

def finish (store : MemoryNotificationStore T) (id : String) (token : T)
    (result : NotificationFinish) : MemoryNotificationStore T × Answer T :=
  match store.records.get id with
  | none => (store, .settled false)
  | some item =>
    if !StoredNotification.holds item token result.now then (store, .settled false)
    else if refusesFinish item.record.channel item.sending result.status result.code then
      (store, .settled false)
    else
      (store.put id
        { record :=
            { item.record with
              status := result.status, updatedAt := result.now, code := result.code
              messageId := result.messageId.filter (· ≠ "") }
          token := none
          expiresAt := none
          sending := sendingAfter item.sending result.status result.code },
        .settled true)

def setRead (store : MemoryNotificationStore T) (id tenantId userId : String) (read : Bool) :
    MemoryNotificationStore T × Answer T :=
  match store.records.get id with
  | none => (store, .settled false)
  | some item =>
    if item.record.channel ≠ .inApp ∨ item.record.status ≠ .delivered ∨
        item.record.recipient.tenantId ≠ tenantId ∨ item.record.recipient.userId ≠ userId then
      (store, .settled false)
    else (store.put id { item with record := { item.record with read } }, .settled true)

def recordDelivered (store : MemoryNotificationStore T) (id messageId : String) (now : Nat) :
    MemoryNotificationStore T × Answer T :=
  match store.records.get id with
  | none => (store, .settled false)
  | some item =>
    if item.record.channel ≠ .email ∨ item.record.status ≠ .providerAccepted ∨
        item.record.messageId ≠ some messageId then
      (store, .settled false)
    else
      (store.put id
        { item with record := { item.record with status := .delivered, updatedAt := now } },
        .settled true)

def step (store : MemoryNotificationStore T) : Call T → MemoryNotificationStore T × Answer T
  | .insert record => store.insert record
  | .claim id now leaseMs token => store.claim id now leaseMs token
  | .beginSend id token now idempotency => store.beginSend id token now idempotency
  | .finish id token result => store.finish id token result
  | .recordDelivered id messageId now => store.recordDelivered id messageId now
  | .setRead id tenantId userId read => store.setRead id tenantId userId read

end MemoryNotificationStore

/-! ## Section 3: `createD1NotificationStore` -/

/-- A row of `cossack_notifications`, without its primary key; `recordJson` is the record
    that was inserted. -/
structure Row (T : Type) where
  key : String
  tenantId : String
  userId : String
  channel : NotificationChannel
  recordJson : NotificationRecord
  status : NotificationStatus
  createdAt : Nat
  updatedAt : Nat
  attempt : Nat
  isRead : Bool
  code : Option NotificationFailureCode
  messageId : Option String
  token : Option T
  leaseUntil : Nat
  sending : Option Idempotency

abbrev NotificationTable (T : Type) := Record (Row T)

namespace D1NotificationStore

def maxSafeInteger : Nat := 2 ^ 53 - 1

def controlCharacter (c : Char) : Bool := c.toNat ≤ 0x1f || c.toNat = 0x7f

/-- What `identity` lets pass. -/
def identity (value : String) : Bool :=
  1 ≤ unitLength value && unitLength value ≤ 512 && !value.toList.any controlCharacter

def timestamp (value : Nat) : Bool := value ≤ maxSafeInteger

/-- `{ ...base, … }`. -/
def record (row : Row T) : NotificationRecord :=
  { row.recordJson with
    status := row.status, updatedAt := row.updatedAt, attempt := row.attempt, read := row.isRead
    code := row.code.or row.recordJson.code
    messageId := (row.messageId.filter (· ≠ "")).or row.recordJson.messageId }

/-- `UPDATE … WHERE id=? AND guard`: the row as it is returned, where one was changed. -/
def update (table : NotificationTable T) (id : String) (guard : Row T → Truth)
    (set : Row T → Row T) : NotificationTable T × Option (Row T) :=
  match table.get id with
  | none => (table, none)
  | some row =>
    if guard row = some true then (table.set id (set row), some (set row)) else (table, none)

/-- The changes of an update are one. -/
def run (updated : NotificationTable T × Option (Row T)) : NotificationTable T × Answer T :=
  (updated.1, .settled updated.2.isSome)

/-- `SELECT * … WHERE key=?`. -/
def byKey (table : NotificationTable T) (key : String) : Option (String × Row T) :=
  table.entries.find? (·.2.key == key)

def identityError : String := "Invalid notification identity."

def timestampError : String := "Invalid notification timestamp."

/-- `INSERT … ON CONFLICT(key) DO NOTHING RETURNING *`, and the row of the key where
    there was one. -/
def insertRow (table : NotificationTable T) (value : NotificationRecord) :
    NotificationTable T × Answer T :=
  match byKey table value.key with
  | some existing => (table, .inserted false (record existing.2))
  | none =>
    if (table.get value.id).isSome then (table, .thrown "Notification persistence failed.")
    else
      let row : Row T :=
        { key := value.key, tenantId := value.recipient.tenantId
          userId := value.recipient.userId, channel := value.channel, recordJson := value
          status := .queued, createdAt := value.createdAt, updatedAt := value.updatedAt
          attempt := 0, isRead := false, code := none, messageId := none, token := none
          leaseUntil := 0, sending := none }
      (table.set value.id row, .inserted true (record row))

/-- `encoded` is the number of bytes of a record's JSON text, where it has one. -/
def insert (encoded : NotificationRecord → Option Nat) (table : NotificationTable T)
    (value : NotificationRecord) : NotificationTable T × Answer T :=
  if !identity value.id || !identity value.recipient.tenantId || !identity value.recipient.userId then
    (table, .thrown identityError)
  else if !digestKey value.key || value.status ≠ .queued || value.attempt ≠ 0 || value.read then
    (table, .thrown "Invalid initial notification state.")
  else if !timestamp value.createdAt || !timestamp value.updatedAt then
    (table, .thrown timestampError)
  else
    match encoded value with
    | none => (table, .thrown "Notification state must contain JSON data.")
    | some bytes =>
      if 256 * 1024 < bytes then (table, .thrown "Notification state exceeds its size limit.")
      else insertRow table value

/-- `status='queued' AND sending='none' AND lease_until<=?`. -/
def uncertain (now : Nat) (row : Row T) : Truth :=
  all3 [eq3 (some row.status) (some .queued), eq3 row.sending (some .none),
    some (row.leaseUntil ≤ now)]

/-- `status='queued' AND (token IS NULL OR lease_until<=?) AND
    (sending IS NULL OR sending='provider')`. -/
def free (now : Nat) (row : Row T) : Truth :=
  all3 [eq3 (some row.status) (some .queued),
    or3 (some row.token.isNone) (some (row.leaseUntil ≤ now)),
    or3 (some row.sending.isNone) (eq3 row.sending (some .provider))]

/-- The statements of a claim that passed its checks. -/
def claimRow (table : NotificationTable T) (id : String) (now leaseMs : Nat) (token : T) :
    NotificationTable T × Answer T :=
  let closed := update table id (uncertain now) fun row =>
    { row with
      status := .unknown, code := some .deliveryUnknown, updatedAt := now, token := none
      leaseUntil := 0, sending := none }
  match closed.2 with
  | some row => (closed.1, .claim (.terminal (record row)))
  | none =>
    let acquired := update table id (free now) fun row =>
      { row with
        token := some token, leaseUntil := now + leaseMs, updatedAt := now
        attempt := row.attempt + 1 }
    match acquired.2 with
    | some row => (acquired.1, .claim (.acquired token (record row) row.sending))
    | none =>
      match table.get id with
      | none => (table, .claim .missing)
      | some row =>
        if row.status = .queued then (table, .claim .busy)
        else (table, .claim (.terminal (record row)))

def claim (table : NotificationTable T) (id : String) (now leaseMs : Nat) (token : T) :
    NotificationTable T × Answer T :=
  if !identity id then (table, .thrown identityError)
  else if !timestamp now then (table, .thrown timestampError)
  else if maxSafeInteger < leaseMs || leaseMs < 1 || 86400000 < leaseMs ||
      maxSafeInteger < now + leaseMs then
    (table, .thrown "Invalid notification lease.")
  else claimRow table id now leaseMs token

/-- `token=? AND status='queued' AND channel='email' AND lease_until>? AND
    (sending IS NULL OR sending=?)`. -/
def mayBegin (token : T) (now : Nat) (idempotency : Idempotency) (row : Row T) : Truth :=
  all3 [eq3 row.token (some token), eq3 (some row.status) (some .queued),
    eq3 (some row.channel) (some .email), some (now < row.leaseUntil),
    or3 (some row.sending.isNone) (eq3 row.sending (some idempotency))]

/-- The message of the first check of a call's identities and clock that fails. -/
def refused (identities : List String) (now : Nat) : Option String :=
  if identities.any (!identity ·) then some identityError
  else if !timestamp now then some timestampError
  else none

def beginSend (identityOf : T → String) (table : NotificationTable T) (id : String) (token : T)
    (now : Nat) (idempotency : Idempotency) : NotificationTable T × Answer T :=
  match refused [id, identityOf token] now with
  | some message => (table, .thrown message)
  | none =>
    run (update table id (mayBegin token now idempotency) fun row =>
      { row with sending := some idempotency, updatedAt := now })

/-- The conditions of `finish` on the result. -/
def allowsFinish (channel : NotificationChannel) (sending : Option Idempotency)
    (status : NotificationStatus) (code : Option NotificationFailureCode) : Truth :=
  all3 [
    any3 [ne3 (some status) (some .queued), some sending.isNone, eq3 code (some .providerRejected),
      and3 (eq3 sending (some .provider)) (eq3 code (some .deliveryUnknown))],
    or3 (ne3 (some status) (some .providerAccepted))
      (and3 (eq3 (some channel) (some .email)) (some sending.isSome)),
    or3 (ne3 (some status) (some .delivered))
      (and3 (eq3 (some channel) (some .inApp)) (some sending.isNone))]

/-- `CASE WHEN ?='queued' AND ?='NOTIFICATION_DELIVERY_UNKNOWN' AND sending='provider'
    THEN sending ELSE NULL END`. -/
def sendingAfter (sending : Option Idempotency) (status : NotificationStatus)
    (code : Option NotificationFailureCode) : Option Idempotency :=
  if all3 [eq3 (some status) (some .queued), eq3 code (some .deliveryUnknown),
      eq3 sending (some .provider)] = some true then sending
  else none

/-- `token=? AND status='queued' AND lease_until>? AND …`. -/
def mayFinish (token : T) (result : NotificationFinish) (row : Row T) : Truth :=
  all3 [eq3 row.token (some token), eq3 (some row.status) (some .queued),
    some (result.now < row.leaseUntil),
    allowsFinish row.channel row.sending result.status result.code]

def finish (identityOf : T → String) (table : NotificationTable T) (id : String) (token : T)
    (result : NotificationFinish) : NotificationTable T × Answer T :=
  match refused [id, identityOf token] result.now with
  | some message => (table, .thrown message)
  | none =>
    if result.messageId.any (!identity ·) then (table, .thrown identityError)
    else
      run (update table id (mayFinish token result) fun row =>
        { row with
          status := result.status, updatedAt := result.now, code := result.code
          messageId := result.messageId, token := none, leaseUntil := 0
          sending := sendingAfter row.sending result.status result.code })

def setRead (table : NotificationTable T) (id tenantId userId : String) (read : Bool) :
    NotificationTable T × Answer T :=
  match refused [id, tenantId, userId] 0 with
  | some message => (table, .thrown message)
  | none =>
    run (update table id
      (fun row => all3 [eq3 (some row.tenantId) (some tenantId), eq3 (some row.userId) (some userId),
        eq3 (some row.channel) (some .inApp), eq3 (some row.status) (some .delivered)])
      fun row => { row with isRead := read })

def recordDelivered (table : NotificationTable T) (id messageId : String) (now : Nat) :
    NotificationTable T × Answer T :=
  match refused [id, messageId] now with
  | some message => (table, .thrown message)
  | none =>
    run (update table id
      (fun row => all3 [eq3 (some row.channel) (some .email),
        eq3 (some row.status) (some .providerAccepted), eq3 row.messageId (some messageId)])
      fun row => { row with status := .delivered, updatedAt := now })

/-- The store; `identityOf` is the text of a token. -/
def step (encoded : NotificationRecord → Option Nat) (identityOf : T → String)
    (table : NotificationTable T) : Call T → NotificationTable T × Answer T
  | .insert record => insert encoded table record
  | .claim id now leaseMs token => claim table id now leaseMs token
  | .beginSend id token now idempotency => beginSend identityOf table id token now idempotency
  | .finish id token result => finish identityOf table id token result
  | .recordDelivered id messageId now => recordDelivered table id messageId now
  | .setRead id tenantId userId read => setRead table id tenantId userId read

end D1NotificationStore

end Cossack.Core.NotificationLedgers
